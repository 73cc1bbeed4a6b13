import ImpactSockets.AbnfParser.Numerals

/-! The functions without recursion against the productions that their comments quote. -/
namespace ImpactSockets.AbnfParser

open Abnf AbnfOps Istream
open scoped Computability

variable {L : Language UInt8} {F : Bytes → Bool × Bytes} {r : Bytes}

/-- The function accepts the text if a prefix of it is in the language, and then reads such a
prefix. Otherwise it reads nothing. -/
structure Recognises (L : Language UInt8) (F : Bytes → Bool × Bytes) (r : Bytes) : Prop where
  sound : (F r).1 = true → ∃ w ∈ L, r = w ++ (F r).2
  complete : (∃ w ∈ L, w <+: r) → (F r).1 = true
  unmoved : (F r).1 = false → (F r).2 = r

/-- A failing attempt leaves the text as it was. -/
theorem attempted_false (h : (attempted F r).1 = false) : (attempted F r).2 = r := by
  unfold attempted at h ⊢
  split_ifs at h ⊢ with hTrue
  · rw [hTrue] at h
    cases h
  · rfl

/-- A succeeding attempt leaves what its body leaves. -/
theorem attempted_eq_true {x : Bytes} : attempted F r = (true, x) ↔ F r = (true, x) := by
  unfold attempted
  split_ifs with hTrue
  · rfl
  · constructor
    · rintro ⟨⟩
    · intro h
      rw [h] at hTrue
      exact absurd rfl hTrue

/-- A function that accepts a text in front of what is left of it. -/
theorem recognises_of_iff (h : ∀ x, attempted F r = (true, x) ↔ ∃ w ∈ L, w ++ x = r) : Recognises L (attempted F) r where
  sound := fun hTrue => by
    obtain ⟨w, hw, hText⟩ := (h (attempted F r).2).mp (Prod.ext hTrue rfl)
    exact ⟨w, hw, hText.symm⟩
  complete := by
    rintro ⟨w, hw, x, hText⟩
    rw [(h x).mpr ⟨w, hw, hText⟩]
  unmoved := attempted_false

/-- A character other than EOF is met exactly where the text begins with it. -/
theorem headD_eq_iff {c : UInt8} (hc : eofChar ≠ c) : r.headD eofChar = c ↔ ∃ behind, r = c :: behind := by
  cases r with
  | nil => simp [hc]
  | cons d r => simp

/-- Two such characters are met exactly where the text begins with them. -/
theorem headD_pair_iff {c d : UInt8} {x : Bytes} (hc : eofChar ≠ c) (hd : eofChar ≠ d) :
    (r.headD eofChar = c ∧ r.tail.headD eofChar = d) ∧ r.tail.tail = x ↔ r = c :: d :: x := by
  rw [headD_eq_iff hc]
  constructor
  · rintro ⟨⟨⟨behind, rfl⟩, hSecond⟩, rfl⟩
    rw [List.tail_cons, headD_eq_iff hd] at hSecond
    obtain ⟨last, rfl⟩ := hSecond
    rfl
  · rintro rfl
    exact ⟨⟨⟨_, rfl⟩, rfl⟩, rfl⟩

/-- `CRLF` on the next two characters, in their order. -/
theorem crlf_eq_true_iff {x : Bytes} :
    crlf (r.headD eofChar) (r.tail.headD eofChar) = true ∧ r.tail.tail = x ↔ r = 0x0D :: 0x0A :: x := by
  rw [crlf, Bool.and_eq_true, beq_iff_eq, beq_iff_eq, headD_pair_iff (by decide) (by decide)]

/-- A comment is accepted exactly where the production has a word, which is unique as it ends
at the newline. -/
theorem comment_eq_true {x : Bytes} : commentText r = (true, x) ↔ ∃ w ∈ Grammar.comment, w ++ x = r := by
  rw [Grammar.comment, exists_delimited_append (by decide), commentText, attempted_eq_true]
  split_ifs with hFirst
  · rw [Ne, headD_eq_iff (by decide)] at hFirst
    refine iff_of_false (by simp) ?_
    rintro ⟨behind, rfl, -⟩
    exact hFirst ⟨behind, rfl⟩
  · rw [Ne, not_not, headD_eq_iff (by decide)] at hFirst
    obtain ⟨behind, rfl⟩ := hFirst
    rw [Prod.mk.injEq, List.tail_cons, crlf_eq_true_iff]
    simp

theorem recognises_comment : Recognises Grammar.comment commentText r := recognises_of_iff fun _ => comment_eq_true

/-- The text up to the first closing delimiter is the only one that can be in the language. -/
theorem delimitedText_eq_true {first last : UInt8} {inside : UInt8 → Bool} (hFirst : eofChar ≠ first)
    (hLast : eofChar ≠ last) (hInside : inside last = false) {x : Bytes} :
    delimitedText first last inside r = (true, x) ↔
      ∃ w ∈ literal [first] * (oneOf inside)∗ * literal [last], w ++ x = r := by
  rw [exists_delimited_append hInside, delimitedText, attempted_eq_true]
  split_ifs with hHead
  · rw [Ne, headD_eq_iff hFirst] at hHead
    refine iff_of_false (by simp) ?_
    rintro ⟨behind, rfl, -⟩
    exact hHead ⟨behind, rfl⟩
  · rw [Ne, not_not, headD_eq_iff hFirst] at hHead
    obtain ⟨behind, rfl⟩ := hHead
    rw [Prod.mk.injEq, List.tail_cons, beq_iff_eq, headD_eq_iff hLast]
    constructor
    · rintro ⟨⟨rest, hRest⟩, rfl⟩
      exact ⟨behind, rfl, by rw [hRest]; rfl⟩
    · rintro ⟨_, hSame, hRest⟩
      rw [← (List.cons.inj hSame).2] at hRest
      rw [hRest]
      exact ⟨⟨x, rfl⟩, rfl⟩

/-- A delimited text is recognised, on every text. -/
theorem recognises_delimited {first last : UInt8} {inside : UInt8 → Bool} (hFirst : eofChar ≠ first)
    (hLast : eofChar ≠ last) (hInside : inside last = false) :
    Recognises (literal [first] * (oneOf inside)∗ * literal [last]) (delimitedText first last inside) r :=
  recognises_of_iff fun _ => delimitedText_eq_true hFirst hLast hInside

/-- `char_val` recognises its production. -/
theorem recognises_charVal : Recognises Grammar.charVal (delimitedText 0x22 0x22 quotedChar) r :=
  recognises_delimited (by decide) (by decide) (by decide)

/-- `prose_val` recognises its production. -/
theorem recognises_proseVal : Recognises Grammar.proseVal (delimitedText 0x3C 0x3E proseChar) r :=
  recognises_delimited (by decide) (by decide) (by decide)

/-- `rulename` recognises its production: it reads the longest name. -/
theorem recognises_rulename : Recognises Grammar.rulename rulenameText r where
  sound := fun hTrue => by
    unfold rulenameText at hTrue ⊢
    split_ifs at hTrue ⊢ with hAlpha
    cases r with
    | nil => cases hAlpha
    | cons c r =>
        refine ⟨c :: r.takeWhile rulenameChar, cons_mem_oneOf_mul.mpr ⟨hAlpha, ?_⟩, ?_⟩
        · exact mem_kstar_oneOf.mpr (List.all_eq_true.mp List.all_takeWhile)
        · rw [List.cons_append, List.tail_cons, List.takeWhile_append_dropWhile]
  complete := by
    rintro ⟨w, hw, x, rfl⟩
    obtain ⟨_, ⟨c, hc, rfl⟩, run, -, rfl⟩ := Language.mem_mul.mp hw
    exact congrArg Prod.fst (if_pos hc)
  unmoved := fun hFalse => by
    unfold rulenameText at hFalse ⊢
    split_ifs at hFalse ⊢
    rfl

/-! ### Repeats -/

/-- A repeat that begins with a star has digits only behind it. -/
theorem repeatText_star : repeatText (0x2A :: r) = (true, r.dropWhile digit) := attempted_eq_true.mpr rfl

/-- Digits in front of a star and digits behind it. -/
theorem repeatText_digits_star {c : UInt8} {behind : Bytes} (hDigit : digit c = true)
    (hStar : r.dropWhile digit = 0x2A :: behind) : repeatText (c :: r) = (true, behind.dropWhile digit) := by
  have hNe : c ≠ 0x2A := by
    rintro rfl
    cases hDigit
  refine attempted_eq_true.mpr ?_
  rw [List.headD_cons, List.tail_cons, if_neg hNe, hDigit, if_neg (by simp), hStar, List.headD_cons, if_pos rfl,
    List.tail_cons]

/-- Digits without a star behind them are a repeat of their own. -/
theorem repeatText_digits {c : UInt8} (hDigit : digit c = true) (hStar : (r.dropWhile digit).headD eofChar ≠ 0x2A) :
    repeatText (c :: r) = (true, r.dropWhile digit) := by
  have hNe : c ≠ 0x2A := by
    rintro rfl
    cases hDigit
  refine attempted_eq_true.mpr ?_
  rw [List.headD_cons, List.tail_cons, if_neg hNe, hDigit, if_neg (by simp), if_neg hStar]

/-- Neither a digit nor a star: the empty repeat. -/
theorem repeatText_other (hStar : r.headD eofChar ≠ 0x2A) (hDigit : digit (r.headD eofChar) = false) :
    repeatText r = (false, r) := by
  rw [repeatText, attempted, if_neg hStar, hDigit]
  rfl

/-- The longest run of a kind of character is a word of its language. -/
theorem takeWhile_mem_kstar (p : UInt8 → Bool) (r : Bytes) : r.takeWhile p ∈ (oneOf p)∗ :=
  mem_kstar_oneOf.mpr (List.all_eq_true.mp List.all_takeWhile)

/-- Digits with a star among or around them. -/
theorem star_mem_repeat {first second : Bytes} (hFirst : first ∈ (oneOf digit)∗) (hSecond : second ∈ (oneOf digit)∗) :
    first ++ 0x2A :: second ∈ Grammar.repeat_ := by
  refine .inr (Language.mem_mul.mpr ⟨first ++ [0x2A], ?_, second, hSecond, by simp⟩)
  exact Language.append_mem_mul hFirst (mem_literal.mpr rfl)

/-- Where there is a repeat, a word of the production is read. -/
theorem repeatText_eq {c : UInt8} (h : c = 0x2A ∨ digit c = true) :
    ∃ w ∈ Grammar.repeat_, ∃ x, repeatText (c :: r) = (true, x) ∧ c :: r = w ++ x := by
  rcases h with rfl | hDigit
  · exact ⟨_, star_mem_repeat (Language.nil_mem_kstar _) (takeWhile_mem_kstar digit r), _, repeatText_star,
      congrArg (0x2A :: ·) List.takeWhile_append_dropWhile.symm⟩
  · have hFirst : c :: r.takeWhile digit ∈ (oneOf digit)∗ := cons_mem_kstar ⟨c, hDigit, rfl⟩ (takeWhile_mem_kstar digit r)
    by_cases hStar : (r.dropWhile digit).headD eofChar = 0x2A
    · obtain ⟨behind, hBehind⟩ := (headD_eq_iff (by decide)).mp hStar
      refine ⟨_, star_mem_repeat hFirst (takeWhile_mem_kstar digit behind), _, repeatText_digits_star hDigit hBehind, ?_⟩
      rw [List.append_assoc, List.cons_append, List.cons_append, List.takeWhile_append_dropWhile, ← hBehind,
        List.takeWhile_append_dropWhile]
    · exact ⟨_, .inl (mem_atLeastOne_of_ne_nil hFirst (by simp)), _, repeatText_digits hDigit hStar,
        congrArg (c :: ·) List.takeWhile_append_dropWhile.symm⟩

/-- The first character decides whether there is a repeat. -/
theorem head_of_mem_repeat {w : Bytes} (h : w ∈ Grammar.repeat_) : ∃ c x, w = c :: x ∧ (c = 0x2A ∨ digit c = true) := by
  rcases (Language.mem_add _ _ _).mp h with h | h
  · obtain ⟨_, ⟨c, hc, rfl⟩, run, -, rfl⟩ := Language.mem_mul.mp h
    exact ⟨c, run, rfl, .inr hc⟩
  · obtain ⟨_, hFirst, run, -, rfl⟩ := Language.mem_mul.mp h
    obtain ⟨digits, hDigits, _, rfl, rfl⟩ := Language.mem_mul.mp hFirst
    cases digits with
    | nil => exact ⟨0x2A, run, rfl, .inl rfl⟩
    | cons c digits => exact ⟨c, _, rfl, .inr (mem_kstar_oneOf.mp hDigits c (List.mem_cons_self ..))⟩

/-- `repeat` recognises its production, longest match. -/
theorem recognises_repeat : Recognises Grammar.repeat_ repeatText r where
  sound := fun hTrue => by
    by_cases hFirst : r.headD eofChar = 0x2A ∨ digit (r.headD eofChar) = true
    · cases r with
      | nil => exact absurd hFirst (by decide)
      | cons c r =>
          obtain ⟨w, hw, x, hRun, hText⟩ := @repeatText_eq r c hFirst
          exact ⟨w, hw, by rw [hRun, hText]⟩
    · rw [not_or, Bool.not_eq_true] at hFirst
      rw [repeatText_other hFirst.1 hFirst.2] at hTrue
      cases hTrue
  complete := by
    rintro ⟨w, hw, x, rfl⟩
    obtain ⟨c, w, rfl, hFirst⟩ := head_of_mem_repeat hw
    obtain ⟨-, -, _, hRun, -⟩ := @repeatText_eq (w ++ x) c hFirst
    rw [List.cons_append, hRun]
  unmoved := attempted_false

/-- A repeat is read to its end if neither a digit nor a star follows. -/
theorem repeatText_append {w x : Bytes} (hw : w ∈ Abnf.optional Grammar.repeat_) (hStar : x.headD eofChar ≠ 0x2A)
    (hDigit : digit (x.headD eofChar) = false) : (repeatText (w ++ x)).2 = x := by
  have hEnd : x.dropWhile digit = x := by
    cases x with
    | nil => rfl
    | cons c x => exact List.dropWhile_cons_of_neg (by simpa using hDigit)
  have hRun {digits : Bytes} (hDigits : ∀ c ∈ digits, digit c = true) (y : Bytes) :
      (digits ++ y).dropWhile digit = y.dropWhile digit := List.dropWhile_append_of_pos hDigits
  rcases mem_optional.mp hw with rfl | hw
  · rw [List.nil_append, repeatText_other hStar hDigit]
  rcases (Language.mem_add _ _ _).mp hw with hw | hw
  · obtain ⟨_, ⟨c, hc, rfl⟩, digits, hDigits, rfl⟩ := Language.mem_mul.mp hw
    have hDrop : (digits ++ x).dropWhile digit = x := (hRun (mem_kstar_oneOf.mp hDigits) x).trans hEnd
    rw [List.append_assoc, List.singleton_append, repeatText_digits hc (hDrop.symm ▸ hStar), hDrop]
  · obtain ⟨_, hFirst, seconds, hSeconds, rfl⟩ := Language.mem_mul.mp hw
    obtain ⟨firsts, hFirsts, _, rfl, rfl⟩ := Language.mem_mul.mp hFirst
    have hDrop : (seconds ++ x).dropWhile digit = x := (hRun (mem_kstar_oneOf.mp hSeconds) x).trans hEnd
    cases firsts with
    | nil => exact (congrArg Prod.snd (@repeatText_star (seconds ++ x))).trans hDrop
    | cons c firsts =>
        have hDigits := List.forall_mem_cons.mp (mem_kstar_oneOf.mp hFirsts)
        have hStarRead : (firsts ++ 0x2A :: (seconds ++ x)).dropWhile digit = 0x2A :: (seconds ++ x) :=
          (hRun hDigits.2 _).trans (List.dropWhile_cons_of_neg (by decide))
        simpa [hDrop] using congrArg Prod.snd (repeatText_digits_star hDigits.1 hStarRead)

/-! ### Newlines -/

/-- The second function has its turn if the first one fails and has put the text back. -/
theorem either_eq_true {G : Bytes → Bool × Bytes} {x : Bytes} (h : (F r).1 = false → (F r).2 = r) :
    either F G r = (true, x) ↔ F r = (true, x) ∨ (F r).1 = false ∧ G r = (true, x) := by
  unfold either
  split_ifs with hTrue
  · simp [hTrue]
  · have hFalse : (F r).1 = false := by simpa using hTrue
    rw [h hFalse]
    constructor
    · exact fun hSecond => .inr ⟨hFalse, hSecond⟩
    · rintro (hFirst | ⟨-, hSecond⟩)
      · rw [hFirst] at hFalse
        cases hFalse
      · exact hSecond

/-- A comment begins with a semicolon. -/
theorem head_of_mem_comment {w : Bytes} (h : w ∈ Grammar.comment) : ∃ x, w = 0x3B :: x := by
  obtain ⟨_, hFirst, _, rfl, rfl⟩ := Language.mem_mul.mp h
  obtain ⟨run, -, rfl⟩ := mem_literal_mul.mp hFirst
  exact ⟨_, rfl⟩

/-- The newline that is read: CR LF, or LF CR where the arguments are evaluated from the right. -/
theorem newlineText_eq_true {order : Order} {x : Bytes} :
    newlineText order r = (true, x) ↔
      r = (if order = .leftToRight then [0x0D, 0x0A] else [0x0A, 0x0D]) ++ x := by
  cases order with
  | leftToRight => exact Prod.mk_inj.trans crlf_eq_true_iff
  | rightToLeft =>
      rw [newlineText, Prod.mk.injEq, crlf, Bool.and_eq_true, beq_iff_eq, beq_iff_eq,
        @and_comm (r.tail.headD eofChar = 0x0D) _, headD_pair_iff (by decide) (by decide)]
      rfl

/-- `c_nl` reads a comment or such a newline. -/
theorem cNlText_eq_true {order : Order} {x : Bytes} :
    cNlText order r = (true, x) ↔
      (∃ w ∈ Grammar.comment, w ++ x = r) ∨ r = (if order = .leftToRight then [0x0D, 0x0A] else [0x0A, 0x0D]) ++ x := by
  rw [cNlText, attempted_eq_true, @either_eq_true commentText _ _ _ attempted_false, comment_eq_true, newlineText_eq_true]
  constructor
  · rintro (hComment | ⟨-, hNewline⟩)
    · exact .inl hComment
    · exact .inr hNewline
  · rintro (hComment | hNewline)
    · exact .inl hComment
    · refine .inr ⟨?_, hNewline⟩
      by_contra hTrue
      obtain ⟨w, hw, hText⟩ := recognises_comment.sound (by simpa using hTrue)
      obtain ⟨y, rfl⟩ := head_of_mem_comment hw
      rw [hNewline] at hText
      cases order <;> cases hText

/-- The argument that is evaluated first gets the first character. -/
theorem recognises_cNl_iff {order : Order} :
    Recognises Grammar.cNl (cNlText order) r ↔
      order = .leftToRight ∨ ¬[0x0D, 0x0A] <+: r ∧ ¬[0x0A, 0x0D] <+: r := by
  have hLanguage {x : Bytes} : (∃ w ∈ Grammar.cNl, w ++ x = r) ↔
      (∃ w ∈ Grammar.comment, w ++ x = r) ∨ r = [0x0D, 0x0A] ++ x := by
    constructor
    · rintro ⟨w, hw, hText⟩
      rcases (Language.mem_add _ _ _).mp hw with hw | rfl
      · exact .inl ⟨w, hw, hText⟩
      · exact .inr hText.symm
    · rintro (⟨w, hw, hText⟩ | hText)
      · exact ⟨w, .inl hw, hText⟩
      · exact ⟨_, .inr rfl, hText.symm⟩
  cases order with
  | leftToRight => exact iff_of_true (recognises_of_iff fun x => cNlText_eq_true.trans hLanguage.symm) (.inl rfl)
  | rightToLeft =>
      constructor
      · intro h
        refine .inr ⟨?_, ?_⟩
        · rintro ⟨x, rfl⟩
          have hTrue := h.complete ⟨[0x0D, 0x0A], .inr rfl, x, rfl⟩
          rcases cNlText_eq_true.mp (Prod.ext hTrue rfl) with ⟨w, hw, hText⟩ | hText
          · obtain ⟨y, rfl⟩ := head_of_mem_comment hw
            cases hText
          · cases hText
        · rintro ⟨x, rfl⟩
          have hRun : cNlText .rightToLeft ([0x0A, 0x0D] ++ x) = (true, x) := cNlText_eq_true.mpr (.inr rfl)
          obtain ⟨w, hw, hText⟩ := h.sound (congrArg Prod.fst hRun)
          rcases hLanguage.mp ⟨w, hw, hText.symm⟩ with ⟨w, hw, hText⟩ | hText
          · obtain ⟨y, rfl⟩ := head_of_mem_comment hw
            cases hText
          · cases hText
      · rintro (hOrder | ⟨hNewline, hReversed⟩)
        · cases hOrder
        · refine recognises_of_iff fun x => cNlText_eq_true.trans (.trans ?_ hLanguage.symm)
          refine or_congr_right (iff_of_false ?_ ?_)
          · exact fun hText => hReversed ⟨x, hText.symm⟩
          · exact fun hText => hNewline ⟨x, hText.symm⟩

/-! ### Values -/

/-- The text begins with the letter, in either case, and a digit. -/
def Begins (letter : UInt8) (digit : UInt8 → Bool) (r : Bytes) : Prop :=
  ∃ c d x, r = c :: d :: x ∧ Ascii.tolower c = letter ∧ digit d = true

/-- The text begins with the letter, and the longest run of digits, dots and dashes behind it
is a series. -/
def Accepted (letter : UInt8) (digit : UInt8 → Bool) (r : Bytes) : Prop :=
  ∃ x, r = letter :: x ∧ x.takeWhile (seriesChar digit) ∈ Grammar.series digit

section Values

variable {digit : UInt8 → Bool} {letter asked : UInt8}

/-- The series that a text begins with. -/
theorem value_prefix_iff :
    (∃ w ∈ Grammar.letter letter * Grammar.series digit, w <+: r) ↔ Begins letter digit r := by
  constructor
  · rintro ⟨w, hw, x, rfl⟩
    obtain ⟨_, ⟨c, hc, rfl⟩, _, hSeries, rfl⟩ := Language.mem_mul.mp hw
    rw [series_eq] at hSeries
    obtain ⟨_, ⟨d, hd, rfl⟩, rest, -, rfl⟩ := Language.mem_mul.mp hSeries
    exact ⟨c, d, rest ++ x, rfl, by simpa using hc, hd⟩
  · rintro ⟨c, d, x, rfl, hc, hd⟩
    refine ⟨[c, d], ⟨[c], ⟨c, by simpa using hc, rfl⟩, [d], ?_, rfl⟩, x, rfl⟩
    rw [series_eq]
    exact cons_mem_oneOf_mul.mpr ⟨hd, [], Language.nil_mem_kstar _, [], nil_mem_continued, rfl⟩

/-- A value is read to the end of the longest run of digits, dots and dashes, if that run is a
series. -/
theorem numericText_eq_true (hAsked : eofChar ≠ asked) (hDash : digit 0x2D = false) (hDot : digit 0x2E = false)
    {x : Bytes} :
    numericText asked digit r = (true, x) ↔
      ∃ behind, r = asked :: behind ∧ behind.takeWhile (seriesChar digit) ∈ Grammar.series digit ∧
        behind.dropWhile (seriesChar digit) = x := by
  rw [numericText, attempted_eq_true]
  split_ifs with hFirst
  · rw [Ne, headD_eq_iff hAsked] at hFirst
    refine iff_of_false (by simp) ?_
    rintro ⟨behind, rfl, -⟩
    exact hFirst ⟨behind, rfl⟩
  · rw [Ne, not_not, headD_eq_iff hAsked] at hFirst
    obtain ⟨behind, rfl⟩ := hFirst
    obtain ⟨hAccepts, hLeft⟩ := @seriesText_iff digit .none behind hDash hDot false
    rw [← series_eq] at hAccepts
    rw [List.tail_cons]
    constructor
    · intro hRun
      rw [hRun] at hAccepts hLeft
      exact ⟨behind, rfl, hAccepts.mp rfl, (hLeft rfl).symm⟩
    · rintro ⟨_, hText, hSeries, rfl⟩
      rw [← (List.cons.inj hText).2] at hSeries ⊢
      have hTrue := hAccepts.mpr hSeries
      exact Prod.ext hTrue (hLeft hTrue)

/-- The value that is read is the letter and the run behind it. -/
theorem numericText_sound (hAsked : eofChar ≠ asked) (hDash : digit 0x2D = false) (hDot : digit 0x2E = false)
    (h : (numericText asked digit r).1 = true) :
    ∃ w ∈ Grammar.series digit, r = asked :: w ++ (numericText asked digit r).2 := by
  rcases hRun : numericText asked digit r with ⟨_ | _, x⟩
  · rw [hRun] at h
    cases h
  · obtain ⟨behind, rfl, hSeries, rfl⟩ := (numericText_eq_true hAsked hDash hDot).mp hRun
    exact ⟨_, hSeries, by rw [List.cons_append, List.takeWhile_append_dropWhile]⟩

/-- A value is accepted if the longest run behind its letter is a series. -/
theorem numericText_accepts_iff (hAsked : eofChar ≠ asked) (hDash : digit 0x2D = false) (hDot : digit 0x2E = false) :
    (numericText asked digit r).1 = true ↔ Accepted asked digit r := by
  constructor
  · intro hTrue
    obtain ⟨behind, hText, hSeries, -⟩ := (numericText_eq_true hAsked hDash hDot).mp (Prod.ext hTrue rfl)
    exact ⟨behind, hText, hSeries⟩
  · rintro ⟨behind, hText, hSeries⟩
    rw [(numericText_eq_true hAsked hDash hDot).mpr ⟨behind, hText, hSeries, rfl⟩]

/-- The function asks for the letter of its production. -/
theorem recognises_value_iff (hLetter : eofChar ≠ letter) (hLower : Ascii.tolower letter = letter)
    (hDash : digit 0x2D = false) (hDot : digit 0x2E = false) :
    Recognises (Grammar.letter letter * Grammar.series digit) (numericText letter digit) r ↔
      (Begins letter digit r → Accepted letter digit r) := by
  rw [← numericText_accepts_iff hLetter hDash hDot]
  constructor
  · exact fun h hBegins => h.complete (value_prefix_iff.mpr hBegins)
  · intro h
    refine ⟨fun hTrue => ?_, fun hPrefix => h (value_prefix_iff.mp hPrefix), attempted_false⟩
    obtain ⟨w, hw, hText⟩ := numericText_sound hLetter hDash hDot hTrue
    exact ⟨letter :: w, ⟨[letter], ⟨letter, by simp [hLower], rfl⟩, w, hw, rfl⟩, hText⟩

/-- The function asks for another letter. -/
theorem recognises_other_value_iff (hAsked : eofChar ≠ asked) (hLower : Ascii.tolower asked ≠ letter)
    (hDash : digit 0x2D = false) (hDot : digit 0x2E = false) :
    Recognises (Grammar.letter letter * Grammar.series digit) (numericText asked digit) r ↔
      ¬Begins letter digit r ∧ ¬Accepted asked digit r := by
  rw [← numericText_accepts_iff hAsked hDash hDot]
  have hOther (hBegins : Begins letter digit r) : ¬(numericText asked digit r).1 = true := by
    intro hTrue
    obtain ⟨c, d, x, rfl, hc, -⟩ := hBegins
    obtain ⟨w, -, hText⟩ := numericText_sound hAsked hDash hDot hTrue
    rw [(List.cons.inj hText).1] at hc
    exact hLower hc
  constructor
  · intro h
    have hNot : ¬Begins letter digit r := fun hBegins =>
      hOther hBegins (h.complete (value_prefix_iff.mpr hBegins))
    refine ⟨hNot, fun hTrue => hNot (value_prefix_iff.mp ?_)⟩
    obtain ⟨w, hw, hText⟩ := h.sound hTrue
    exact ⟨w, hw, _, hText.symm⟩
  · rintro ⟨hBegins, hFalse⟩
    exact ⟨fun hTrue => absurd hTrue hFalse, fun hPrefix => absurd (value_prefix_iff.mp hPrefix) hBegins,
      attempted_false⟩

end Values

/-- The values that `num_val` reads: no bits, and decimals also where `bin_val` reads them. -/
def ValueRead (r : Bytes) : Prop :=
  ¬Begins 0x62 bit r ∧ (Begins 0x64 digit r → Accepted 0x64 bit r ∨ Accepted 0x64 digit r) ∧
    (Begins 0x78 hexdig r → Accepted 0x78 hexdig r)

/-- A series of bits is a series of digits. -/
theorem series_bit_le : Grammar.series bit ≤ Grammar.series digit := by
  have hBit : oneOf bit ≤ oneOf digit := by
    rintro _ ⟨c, hc, rfl⟩
    refine ⟨c, ?_, rfl⟩
    rcases Bool.or_eq_true_iff.mp hc with hc | hc
    · rw [eq_of_beq hc]
      rfl
    · rw [eq_of_beq hc]
      rfl
  unfold Grammar.series Grammar.numeral atLeastOne Abnf.optional
  gcongr

/-- A small letter stands for itself, of the two cases. -/
theorem letter_mem {letter : UInt8} (h : Ascii.tolower letter = letter) : [letter] ∈ Grammar.letter letter :=
  ⟨letter, by simp [h], rfl⟩

/-- The text begins with a number of the production in one of the three bases. -/
theorem numVal_prefix_iff :
    (∃ w ∈ Grammar.numVal, w <+: r) ↔
      ∃ x, r = 0x25 :: x ∧ (Begins 0x62 bit x ∨ Begins 0x64 digit x ∨ Begins 0x78 hexdig x) := by
  simp only [← value_prefix_iff]
  constructor
  · rintro ⟨w, hw, y, rfl⟩
    obtain ⟨v, hv, rfl⟩ := mem_literal_mul.mp hw
    refine ⟨v ++ y, rfl, ?_⟩
    rcases (Language.mem_add _ _ _).mp hv with hv | hv
    · rcases (Language.mem_add _ _ _).mp hv with hv | hv
      · exact .inl ⟨v, hv, y, rfl⟩
      · exact .inr (.inl ⟨v, hv, y, rfl⟩)
    · exact .inr (.inr ⟨v, hv, y, rfl⟩)
  · rintro ⟨_, rfl, ⟨v, hv, y, rfl⟩ | ⟨v, hv, y, rfl⟩ | ⟨v, hv, y, rfl⟩⟩
    · exact ⟨0x25 :: v, cons_mem_literal_mul.mpr ⟨rfl, .inl (.inl hv)⟩, y, rfl⟩
    · exact ⟨0x25 :: v, cons_mem_literal_mul.mpr ⟨rfl, .inl (.inr hv)⟩, y, rfl⟩
    · exact ⟨0x25 :: v, cons_mem_literal_mul.mpr ⟨rfl, .inr hv⟩, y, rfl⟩

/-- The three functions in the order of the source, with 'd' asked for by the first two. -/
theorem numText_eq_true {y : Bytes} :
    numText r = (true, y) ↔ ∃ x, r = 0x25 :: x ∧
      either (numericText 0x64 bit) (either (numericText 0x64 digit) (numericText 0x78 hexdig)) x = (true, y) := by
  rw [numText, attempted_eq_true]
  split_ifs with hFirst
  · rw [Ne, headD_eq_iff (by decide)] at hFirst
    refine iff_of_false (by simp) ?_
    rintro ⟨x, rfl, -⟩
    exact hFirst ⟨x, rfl⟩
  · rw [Ne, not_not, headD_eq_iff (by decide)] at hFirst
    obtain ⟨behind, rfl⟩ := hFirst
    simp

/-- A choice accepts what one of the two accepts, if the first puts the text back. -/
theorem either_accepts_iff {G : Bytes → Bool × Bytes} (h : (F r).1 = false → (F r).2 = r) :
    (either F G r).1 = true ↔ (F r).1 = true ∨ (G r).1 = true := by
  unfold either
  split_ifs with hTrue
  · simp [hTrue]
  · rw [h (by simpa using hTrue)]
    simp [hTrue]

/-- What `num_val` accepts. -/
theorem numText_accepts_iff :
    (numText r).1 = true ↔
      ∃ x, r = 0x25 :: x ∧ (Accepted 0x64 bit x ∨ Accepted 0x64 digit x ∨ Accepted 0x78 hexdig x) := by
  have hAccepts (x : Bytes) :
      (either (numericText 0x64 bit) (either (numericText 0x64 digit) (numericText 0x78 hexdig)) x).1 = true ↔
        Accepted 0x64 bit x ∨ Accepted 0x64 digit x ∨ Accepted 0x78 hexdig x := by
    rw [@either_accepts_iff (numericText 0x64 bit) _ _ attempted_false,
      @either_accepts_iff (numericText 0x64 digit) _ _ attempted_false,
      numericText_accepts_iff (by decide) (by decide) (by decide),
      numericText_accepts_iff (by decide) (by decide) (by decide),
      numericText_accepts_iff (by decide) (by decide) (by decide)]
  constructor
  · intro hTrue
    obtain ⟨x, hText, hRun⟩ := numText_eq_true.mp (Prod.ext hTrue rfl)
    exact ⟨x, hText, (hAccepts x).mp (by rw [hRun])⟩
  · rintro ⟨x, hText, hAccepted⟩
    rw [numText_eq_true.mpr ⟨x, hText, Prod.ext ((hAccepts x).mpr hAccepted) rfl⟩]

/-- Whatever is accepted is a number, if not always all of it. -/
theorem numText_sound (h : (numText r).1 = true) : ∃ w ∈ Grammar.numVal, r = w ++ (numText r).2 := by
  rcases hRun : numText r with ⟨_ | _, y⟩
  · rw [hRun] at h
    cases h
  obtain ⟨x, rfl, hEither⟩ := numText_eq_true.mp hRun
  rw [@either_eq_true (numericText 0x64 bit) _ _ _ attempted_false,
    @either_eq_true (numericText 0x64 digit) _ _ _ attempted_false] at hEither
  have hSound {asked : UInt8} {digit : UInt8 → Bool} (hAsked : eofChar ≠ asked) (hDash : digit 0x2D = false)
      (hDot : digit 0x2E = false) (hValue : numericText asked digit x = (true, y)) :
      ∃ w ∈ Grammar.series digit, x = asked :: w ++ y := by
    obtain ⟨w, hw, hText⟩ := numericText_sound hAsked hDash hDot (congrArg Prod.fst hValue)
    exact ⟨w, hw, by rwa [hValue] at hText⟩
  rcases hEither with hBits | ⟨-, hDigits | ⟨-, hHex⟩⟩
  · obtain ⟨w, hw, rfl⟩ := hSound (by decide) (by decide) (by decide) hBits
    have hSeries : w ∈ Grammar.series digit := series_bit_le hw
    exact ⟨0x25 :: ([0x64] ++ w), cons_mem_literal_mul.mpr ⟨rfl, .inl (.inr ⟨_, letter_mem rfl, w, hSeries, rfl⟩)⟩, rfl⟩
  · obtain ⟨w, hw, rfl⟩ := hSound (by decide) (by decide) (by decide) hDigits
    exact ⟨0x25 :: ([0x64] ++ w), cons_mem_literal_mul.mpr ⟨rfl, .inl (.inr ⟨_, letter_mem rfl, w, hw, rfl⟩)⟩, rfl⟩
  · obtain ⟨w, hw, rfl⟩ := hSound (by decide) (by decide) (by decide) hHex
    exact ⟨0x25 :: ([0x78] ++ w), cons_mem_literal_mul.mpr ⟨rfl, .inr ⟨_, letter_mem rfl, w, hw, rfl⟩⟩, rfl⟩

/-- The letter that is asked for is the first one of the text. -/
theorem Begins.tolower_eq {letter asked : UInt8} {p q : UInt8 → Bool} (h : Begins letter p r)
    (hAccepted : Accepted asked q r) :
    Ascii.tolower asked = letter := by
  obtain ⟨c, d, x, rfl, hc, -⟩ := h
  obtain ⟨y, hText, -⟩ := hAccepted
  rwa [← (List.cons.inj hText).1]

/-- `num_val` recognises its production exactly on the values that it reads. -/
theorem recognises_numVal_iff : Recognises Grammar.numVal numText r ↔ ∀ x, r = 0x25 :: x → ValueRead x := by
  constructor
  · rintro h x rfl
    have hAccepts (hBegins : Begins 0x62 bit x ∨ Begins 0x64 digit x ∨ Begins 0x78 hexdig x) :
        Accepted 0x64 bit x ∨ Accepted 0x64 digit x ∨ Accepted 0x78 hexdig x := by
      obtain ⟨_, hText, hAccepted⟩ :=
        numText_accepts_iff.mp (h.complete (numVal_prefix_iff.mpr ⟨x, rfl, hBegins⟩))
      rwa [(List.cons.inj hText).2]
    refine ⟨fun hBits => ?_, fun hDigits => ?_, fun hHex => ?_⟩
    · rcases hAccepts (.inl hBits) with hAccepted | hAccepted | hAccepted
      · exact absurd (hBits.tolower_eq hAccepted) (by decide)
      · exact absurd (hBits.tolower_eq hAccepted) (by decide)
      · exact absurd (hBits.tolower_eq hAccepted) (by decide)
    · rcases hAccepts (.inr (.inl hDigits)) with hAccepted | hAccepted | hAccepted
      · exact .inl hAccepted
      · exact .inr hAccepted
      · exact absurd (hDigits.tolower_eq hAccepted) (by decide)
    · rcases hAccepts (.inr (.inr hHex)) with hAccepted | hAccepted | hAccepted
      · exact absurd (hHex.tolower_eq hAccepted) (by decide)
      · exact absurd (hHex.tolower_eq hAccepted) (by decide)
      · exact hAccepted
  · intro h
    refine ⟨numText_sound, fun hPrefix => numText_accepts_iff.mpr ?_, attempted_false⟩
    obtain ⟨x, hText, hBegins⟩ := numVal_prefix_iff.mp hPrefix
    obtain ⟨hBits, hDigits, hHex⟩ := h x hText
    refine ⟨x, hText, ?_⟩
    rcases hBegins with hBegins | hBegins | hBegins
    · exact absurd hBegins hBits
    · exact (hDigits hBegins).imp_right .inl
    · exact .inr (.inr (hHex hBegins))

end ImpactSockets.AbnfParser
