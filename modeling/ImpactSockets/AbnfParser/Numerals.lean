import ImpactSockets.AbnfParser.Acts
import ImpactSockets.AbnfParser.Grammar

/-! The loop over the numbers of a value, and the series of numbers it accepts. -/
namespace ImpactSockets.AbnfParser

open Abnf AbnfOps Fuelled Istream Grammar
open scoped Computability

variable {digit : UInt8 → Bool} {extension : Extension} {c : UInt8} {r w : Bytes}

/-- What the loop makes of a text, in front of a number or inside one. -/
def seriesText (digit : UInt8 → Bool) : Bool → Extension → Bytes → Bool × Bytes
  | inside, _, [] => (inside, [])
  | inside, extension, c :: r =>
      if digit c then seriesText digit true extension r
      else if !inside then (false, r)
      else if c = 0x2D then
        if extension ≠ .none then (false, c :: r) else seriesText digit false .range r
      else if c = 0x2E then
        if extension = .range then (false, c :: r) else seriesText digit false .space r
      else (true, c :: r)

/-- Reading a series moves on in the text. -/
theorem seriesText_suffix (inside : Bool) : (seriesText digit inside extension r).2 <:+ r := by
  induction r generalizing inside extension with
  | nil => exact List.suffix_rfl
  | cons c r ih =>
      have hTail : r <:+ c :: r := List.suffix_cons c r
      rw [seriesText]
      split_ifs
      · exact (ih true).trans hTail
      · exact hTail
      · exact List.suffix_rfl
      · exact (ih false).trans hTail
      · exact List.suffix_rfl
      · exact (ih false).trans hTail
      · exact List.suffix_rfl

/-- The digits of a number are skipped. -/
theorem seriesText_dropWhile :
    seriesText digit true extension (r.dropWhile digit) = seriesText digit true extension r := by
  induction r with
  | nil => rfl
  | cons c r ih =>
      by_cases hDigit : digit c
      · rw [List.dropWhile_cons_of_pos hDigit, ih, seriesText, if_pos hDigit]
      · rw [List.dropWhile_cons_of_neg hDigit]

/-- The loop over the values logs nothing, by induction on its turns. -/
theorem silent_values (n : Nat) : Silent (values digit n extension) := by
  induction n generalizing extension with
  | zero => exact silent_exhausted
  | succ n ih =>
      rw [values]
      refine (silent_call _).bind fun _ => silent_ite (silent_pure _) ((silent_call _).bind fun _ =>
        (silent_call _).bind fun _ => silent_ite ?_ (silent_ite ?_ (silent_pure _)))
      · exact silent_ite (silent_pure _) ((silent_call _).bind fun _ => ih)
      · exact silent_ite (silent_pure _) ((silent_call _).bind fun _ => ih)

/-- One unit of fuel a character is enough for the loop, which reads a digit in each turn. -/
theorem yields_values (hDigit : digit eofChar = false) {n : Nat} (h : r.length < n) :
    Yields (values digit n extension) r (seriesText digit false extension r).1
      (seriesText digit false extension r).2 := by
  induction n generalizing extension r with
  | zero => exact absurd h (by omega)
  | succ n ih =>
      rw [values]
      refine (acts_get.run r).bind ?_
      cases r with
      | nil =>
          rw [List.headD_nil, hDigit]
          exact yields_pure false []
      | cons c r =>
          rw [List.headD_cons, List.tail_cons, seriesText]
          by_cases hChar : digit c
          · simp only [hChar, Bool.not_true, Bool.false_eq_true, if_false, if_true]
            refine ((acts_skipWhile hDigit).run r).bind ((acts_peek.run _).bind ?_)
            rw [← seriesText_dropWhile]
            have hLength : (r.dropWhile digit).length ≤ r.length := (List.dropWhile_suffix digit).length_le
            have hFirst := List.head?_dropWhile_not digit r
            generalize r.dropWhile digit = left at hLength hFirst ⊢
            cases left with
            | nil => exact yields_pure true []
            | cons d left =>
                have hOther : digit d = false := by simpa using hFirst
                have hLess : left.length < n := by
                  simp only [List.length_cons] at h hLength
                  omega
                have hNext (next : Extension) : Yields (Scan.get >>= fun _ => values digit n next) (d :: left)
                    (seriesText digit false next left).1 (seriesText digit false next left).2 :=
                  (acts_get.run (d :: left)).bind (ih hLess)
                simp only [List.headD_cons, seriesText, hOther, Bool.false_eq_true, if_false, Bool.not_true]
                exact yields_ite (yields_ite (yields_pure false _) (hNext .range))
                  (yields_ite (yields_ite (yields_pure false _) (hNext .space)) (yields_pure true _))
          · simp only [hChar, Bool.not_false, Bool.false_eq_true, if_false, if_true]
            exact yields_pure false r

/-! ### Series -/

/-- What may follow a number of a series, by the kind of the series so far. -/
def continued (digit : UInt8 → Bool) : Extension → Language UInt8
  | .none => Abnf.optional (atLeastOne (literal [0x2E] * numeral digit) + literal [0x2D] * numeral digit)
  | .range => 1
  | .space => (literal [0x2E] * numeral digit)∗

/-- What the loop expects, inside a number or in front of one. -/
def expected (digit : UInt8 → Bool) (inside : Bool) (extension : Extension) : Language UInt8 :=
  if inside then (oneOf digit)∗ * continued digit extension
  else oneOf digit * ((oneOf digit)∗ * continued digit extension)

theorem series_eq : series digit = expected digit false .none := mul_assoc _ _ _

theorem nil_mem_continued : [] ∈ continued digit extension := by
  cases extension with
  | none => exact mem_optional.mpr (.inl rfl)
  | range => exact Language.nil_mem_one
  | space => exact Language.nil_mem_kstar _

/-- Behind the first value a dot or a dash may follow. -/
theorem cons_mem_continued_none :
    c :: w ∈ continued digit .none ↔
      c = 0x2E ∧ w ∈ expected digit false .space ∨ c = 0x2D ∧ w ∈ expected digit false .range := by
  have hSpace : expected digit false .space = numeral digit * (literal [0x2E] * numeral digit)∗ :=
    (mul_assoc _ _ _).symm
  have hRange : expected digit false .range = numeral digit := congrArg (oneOf digit * ·) (mul_one _)
  rw [hSpace, hRange, continued, mem_optional, Language.mem_add, atLeastOne, mul_assoc, cons_mem_literal_mul,
    cons_mem_literal_mul]
  simp

theorem cons_mem_continued_space : c :: w ∈ continued digit .space ↔ c = 0x2E ∧ w ∈ expected digit false .space := by
  have hSpace : expected digit false .space = numeral digit * (literal [0x2E] * numeral digit)∗ :=
    (mul_assoc _ _ _).symm
  rw [hSpace, continued, cons_mem_kstar_literal_mul]

theorem cons_not_mem_continued_range : c :: w ∉ continued digit .range := by
  simp [continued, Language.mem_one]

/-- The characters of a series. -/
def seriesChar (digit : UInt8 → Bool) (c : UInt8) : Bool := digit c || c == 0x2D || c == 0x2E

/-- No digit continues a series: the numbers of a series are as long as they can be. -/
theorem digit_not_mem_continued (hDash : digit 0x2D = false) (hDot : digit 0x2E = false) (h : digit c) :
    c :: w ∉ continued digit extension := by
  have hOther : c ≠ 0x2E ∧ c ≠ 0x2D := by
    constructor <;> rintro rfl <;> simp_all
  cases extension with
  | none => simp [cons_mem_continued_none, hOther]
  | range => exact cons_not_mem_continued_range
  | space => simp [cons_mem_continued_space, hOther]

theorem nil_mem_expected : [] ∈ expected digit true extension :=
  Language.append_mem_mul (Language.nil_mem_kstar _) nil_mem_continued

/-- A digit may stand wherever one is expected, and more of them behind it. -/
theorem digit_mem_expected (hDash : digit 0x2D = false) (hDot : digit 0x2E = false) (h : digit c) {inside : Bool} :
    c :: w ∈ expected digit inside extension ↔ w ∈ expected digit true extension := by
  cases inside with
  | true => simp [expected, cons_mem_kstar_oneOf_mul, h, digit_not_mem_continued hDash hDot h]
  | false => simp [expected, cons_mem_oneOf_mul, h]

/-- Behind a number stands what continues the series. -/
theorem other_mem_expected (h : ¬digit c) :
    c :: w ∈ expected digit true extension ↔ c :: w ∈ continued digit extension := by
  simp [expected, cons_mem_kstar_oneOf_mul, h]

/-- A number begins with a digit. -/
theorem takeWhile_not_mem_expected (h : ¬digit c) {p : UInt8 → Bool} :
    (c :: r).takeWhile p ∉ expected digit false extension := by
  intro hMem
  rw [List.takeWhile_cons] at hMem
  split_ifs at hMem
  · exact h (cons_mem_oneOf_mul.mp hMem).1
  · exact nil_not_mem_oneOf_mul hMem

/-- The loop accepts a text if all of its longest run of such characters is expected, and
reads that run. -/
theorem seriesText_iff (hDash : digit 0x2D = false) (hDot : digit 0x2E = false) {inside : Bool} :
    ((seriesText digit inside extension r).1 = true ↔
        r.takeWhile (seriesChar digit) ∈ expected digit inside extension) ∧
      ((seriesText digit inside extension r).1 = true →
        (seriesText digit inside extension r).2 = r.dropWhile (seriesChar digit)) := by
  induction r generalizing inside extension with
  | nil =>
      cases inside with
      | true => exact ⟨iff_of_true rfl nil_mem_expected, fun _ => rfl⟩
      | false => exact ⟨iff_of_false Bool.false_ne_true nil_not_mem_oneOf_mul, fun _ => rfl⟩
  | cons c r ih =>
      rw [seriesText]
      by_cases hDigit : digit c
      · have hChar : seriesChar digit c = true := by simp [seriesChar, hDigit]
        rw [if_pos hDigit, List.takeWhile_cons_of_pos hChar, List.dropWhile_cons_of_pos hChar]
        exact ⟨(@ih extension true).1.trans (digit_mem_expected hDash hDot hDigit).symm, ih.2⟩
      · rw [if_neg hDigit]
        cases inside with
        | false =>
            have hNot := @takeWhile_not_mem_expected _ extension _ r hDigit (seriesChar digit)
            exact ⟨iff_of_false Bool.false_ne_true hNot, fun hTrue => absurd hTrue Bool.false_ne_true⟩
        | true =>
            rw [Bool.not_true, if_neg Bool.false_ne_true]
            by_cases hDashChar : c = 0x2D
            · have hChar : seriesChar digit c = true := by simp [seriesChar, hDashChar]
              rw [if_pos hDashChar, List.takeWhile_cons_of_pos hChar, List.dropWhile_cons_of_pos hChar,
                other_mem_expected hDigit]
              cases extension with
              | none => simpa [cons_mem_continued_none, hDashChar] using @ih .range false
              | range => simp [cons_not_mem_continued_range]
              | space => simp [cons_mem_continued_space, hDashChar]
            · rw [if_neg hDashChar]
              by_cases hDotChar : c = 0x2E
              · have hChar : seriesChar digit c = true := by simp [seriesChar, hDotChar]
                rw [if_pos hDotChar, List.takeWhile_cons_of_pos hChar, List.dropWhile_cons_of_pos hChar,
                  other_mem_expected hDigit]
                cases extension with
                | none => simpa [cons_mem_continued_none, hDotChar] using @ih .space false
                | range => simp [cons_not_mem_continued_range]
                | space => simpa [cons_mem_continued_space, hDotChar] using @ih .space false
              · have hChar : ¬seriesChar digit c = true := by simp [seriesChar, hDigit, hDashChar, hDotChar]
                rw [if_neg hDotChar, List.takeWhile_cons_of_neg hChar, List.dropWhile_cons_of_neg hChar]
                exact ⟨iff_of_true rfl nil_mem_expected, fun _ => rfl⟩

/-! ### Values -/

def numericText (letter : UInt8) (digit : UInt8 → Bool) : Bytes → Bool × Bytes := attempted fun r =>
  if r.headD eofChar ≠ letter then (false, r.tail) else seriesText digit false .none r.tail

/-- A value as a function of the text. -/
theorem acts_numericVal (letter : UInt8) (hDigit : digit eofChar = false) :
    Acts (numericVal letter digit) (numericText letter digit) := by
  have hValues : Acts (do values digit ((← look (·.rest.length)) + 1) .none) (seriesText digit false .none) :=
    { run := fun r => by
        have hLength : Yields (look (·.rest.length)) r r.length r := by
          rintro s hs rfl
          exact ⟨s, rfl, Reads.refl hs⟩
        exact hLength.bind (yields_values hDigit (Nat.lt_succ_self _))
      suffix := fun _ => seriesText_suffix false
      silent := (silent_call _).bind fun _ => silent_values _ }
  exact Acts.attempt ((acts_get.bind fun _ => acts_ite (acts_pure false) hValues).congr fun _ => rfl)

def numText : Bytes → Bool × Bytes := attempted fun r =>
  if r.headD eofChar ≠ 0x25 then (false, r.tail)
  else either (numericText 0x64 bit) (either (numericText 0x64 AbnfOps.digit) (numericText 0x78 hexdig)) r.tail

/-- A number as a function of the text. -/
theorem acts_numVal : Acts AbnfParser.numVal numText :=
  Acts.attempt ((acts_get.bind fun _ => acts_ite (acts_pure false)
    ((acts_numericVal 0x64 (by decide)).orElse
      ((acts_numericVal 0x64 (by decide)).orElse (acts_numericVal 0x78 (by decide))))).congr fun _ => rfl)

theorem eats_numVal : Eats numText := by
  refine Eats.attempted (eats_of_head rfl fun r => .inl ?_)
  split_ifs
  · exact List.suffix_rfl
  · exact ((acts_numericVal 0x64 (by decide)).orElse
      ((acts_numericVal 0x64 (by decide)).orElse (acts_numericVal 0x78 (by decide)))).suffix r.tail

end ImpactSockets.AbnfParser
