import Mathlib.Computability.Language

/-! The operators of ABNF on formal languages. Alternatives, concatenations and
unbounded repetitions are the sum, the product and the star of languages. -/
namespace Abnf

open Language
open scoped Computability

universe u

variable {α : Type u}

/-- One character of a class. -/
def oneOf (p : α → Bool) : Language α := {w | ∃ c, p c = true ∧ w = [c]}

/-- A fixed string. -/
def literal (text : List α) : Language α := {w | w = text}

/-- `[ L ]`. -/
def optional (L : Language α) : Language α := 1 + L

/-- `*nL`. -/
def upTo (n : Nat) (L : Language α) : Language α := {w | ∃ k, k ≤ n ∧ w ∈ L ^ k}

/-- `1*L`. -/
def atLeastOne (L : Language α) : Language α := L * L∗

@[simp]
theorem mem_oneOf {p : α → Bool} {w : List α} : w ∈ oneOf p ↔ ∃ c, p c = true ∧ w = [c] := Iff.rfl

@[simp]
theorem mem_literal {text w : List α} : w ∈ literal text ↔ w = text := Iff.rfl

/-- An optional word is empty or a word. -/
@[simp]
theorem mem_optional {L : Language α} {w : List α} : w ∈ optional L ↔ w = [] ∨ w ∈ L := by
  rw [optional, Language.mem_add, Language.mem_one]

theorem mem_upTo {n : Nat} {L : Language α} {w : List α} : w ∈ upTo n L ↔ ∃ k, k ≤ n ∧ w ∈ L ^ k := Iff.rfl

/-- A literal in front of a word. -/
theorem mem_literal_mul {text w : List α} {L : Language α} :
    w ∈ literal text * L ↔ ∃ rest ∈ L, w = text ++ rest := by
  rw [Language.mem_mul]
  constructor
  · rintro ⟨_, rfl, rest, hRest, rfl⟩
    exact ⟨rest, hRest, rfl⟩
  · rintro ⟨rest, hRest, rfl⟩
    exact ⟨text, rfl, rest, hRest, rfl⟩

/-- What may stand behind a delimiter. -/
theorem mem_optional_literal_mul {d : α} {L : Language α} {w : List α} :
    w ∈ optional (literal [d] * L) ↔
      ∃ text : Option (List α), (∀ inner ∈ text, inner ∈ L) ∧ w = (text.map (d :: ·)).getD [] := by
  rw [mem_optional, mem_literal_mul]
  constructor
  · rintro (rfl | ⟨inner, hInner, rfl⟩)
    · exact ⟨none, by simp, rfl⟩
    · exact ⟨some inner, by simpa using hInner, rfl⟩
  · rintro ⟨_ | inner, hInner, rfl⟩
    · exact .inl rfl
    · exact .inr ⟨inner, hInner inner rfl, rfl⟩

/-- What may stand in front of a delimiter. -/
theorem mem_optional_mul_literal {d : α} {L : Language α} {w : List α} :
    w ∈ optional (L * literal [d]) ↔
      ∃ text : Option (List α), (∀ inner ∈ text, inner ∈ L) ∧ w = (text.map (· ++ [d])).getD [] := by
  rw [mem_optional, Language.mem_mul]
  constructor
  · rintro (rfl | ⟨inner, hInner, _, rfl, rfl⟩)
    · exact ⟨none, by simp, rfl⟩
    · exact ⟨some inner, by simpa using hInner, rfl⟩
  · rintro ⟨_ | inner, hInner, rfl⟩
    · exact .inl rfl
    · exact .inr ⟨inner, hInner inner rfl, _, rfl, rfl⟩

/-! ### Repetition -/

/-- Two repetitions in sequence are one. -/
theorem append_mem_kstar {L : Language α} {first second : List α} (hFirst : first ∈ L∗)
    (hSecond : second ∈ L∗) : first ++ second ∈ L∗ := by
  obtain ⟨firsts, rfl, hFirsts⟩ := Language.mem_kstar.mp hFirst
  obtain ⟨seconds, rfl, hSeconds⟩ := Language.mem_kstar.mp hSecond
  rw [← List.flatten_append]
  refine Language.join_mem_kstar fun word hWord => ?_
  rcases List.mem_append.mp hWord with hWord | hWord
  · exact hFirsts word hWord
  · exact hSeconds word hWord

/-- One word is a repetition. -/
theorem mem_kstar_of_mem {L : Language α} {w : List α} (h : w ∈ L) : w ∈ L∗ :=
  Language.mem_kstar.mpr ⟨[w], by simp, by simpa using h⟩

/-- A word of one character in front of a repetition. -/
theorem cons_mem_kstar {L : Language α} {c : α} {rest : List α} (hFirst : [c] ∈ L)
    (hRest : rest ∈ L∗) : c :: rest ∈ L∗ :=
  append_mem_kstar (mem_kstar_of_mem hFirst) hRest

/-- A property of words that holds of the empty one and is kept by another
repetition in front. -/
theorem kstar_induction {L : Language α} {property : List α → Prop} (hNil : property [])
    (hAppend : ∀ first ∈ L, ∀ rest, property rest → property (first ++ rest)) {w : List α}
    (h : w ∈ L∗) : property w := by
  obtain ⟨words, rfl, hWords⟩ := Language.mem_kstar.mp h
  clear h
  induction words with
  | nil => exact hNil
  | cons first words ih =>
      refine hAppend first (hWords first (List.mem_cons_self ..)) _ (ih fun word hWord => ?_)
      exact hWords word (List.mem_cons_of_mem _ hWord)

/-- The first repetition, if there is one. -/
theorem kstar_cases {L : Language α} {w : List α} (h : w ∈ L∗) :
    w = [] ∨ ∃ first ∈ L, ∃ rest ∈ L∗, w = first ++ rest := by
  rw [← Language.one_add_self_mul_kstar_eq_kstar] at h
  rcases h with h | h
  · exact .inl h
  · obtain ⟨first, hFirst, rest, hRest, rfl⟩ := Language.mem_mul.mp h
    exact .inr ⟨first, hFirst, rest, hRest, rfl⟩

/-- Repetitions that are not empty. -/
theorem mem_atLeastOne_of_ne_nil {L : Language α} {w : List α} (h : w ∈ L∗) (hNe : w ≠ []) : w ∈ atLeastOne L := by
  refine (@kstar_induction _ L (fun w => w ∈ L∗ ∧ (w ≠ [] → w ∈ atLeastOne L)) ⟨Language.nil_mem_kstar _, by simp⟩
    ?_ w h).2 hNe
  rintro first hFirst rest ⟨hRest, _⟩
  exact ⟨append_mem_kstar (mem_kstar_of_mem hFirst) hRest, fun _ => Language.append_mem_mul hFirst hRest⟩

/-- A repetition of single characters is any text of such characters. -/
theorem mem_kstar_oneOf {p : α → Bool} {w : List α} : w ∈ (oneOf p)∗ ↔ ∀ c ∈ w, p c = true := by
  constructor
  · refine @kstar_induction _ _ (fun w => ∀ c ∈ w, p c = true) (by simp) ?_ w
    rintro _ ⟨c, hc, rfl⟩ rest hRest
    simpa using ⟨hc, hRest⟩
  · intro h
    induction w with
    | nil => exact Language.nil_mem_kstar _
    | cons c rest ih =>
        rw [List.forall_mem_cons] at h
        exact cons_mem_kstar ⟨c, h.1, rfl⟩ (ih h.2)

/-- One or more single characters: any text of such characters but the empty one. -/
theorem mem_atLeastOne_oneOf {p : α → Bool} {w : List α} :
    w ∈ atLeastOne (oneOf p) ↔ w ≠ [] ∧ ∀ c ∈ w, p c = true := by
  rw [atLeastOne, Language.mem_mul]
  constructor
  · rintro ⟨_, ⟨c, hc, rfl⟩, rest, hRest, rfl⟩
    exact ⟨by simp, List.forall_mem_cons.mpr ⟨hc, mem_kstar_oneOf.mp hRest⟩⟩
  · rintro ⟨hNe, hChars⟩
    obtain ⟨c, rest, rfl⟩ := List.exists_cons_of_ne_nil hNe
    rw [List.forall_mem_cons] at hChars
    exact ⟨[c], ⟨c, hChars.1, rfl⟩, rest, mem_kstar_oneOf.mpr hChars.2, rfl⟩

theorem mem_pow_zero {L : Language α} {w : List α} : w ∈ L ^ 0 ↔ w = [] := by
  rw [pow_zero, Language.mem_one]

/-- The first of n + 1 words and the others. -/
theorem mem_pow_succ {L : Language α} {n : Nat} {w : List α} :
    w ∈ L ^ (n + 1) ↔ ∃ first ∈ L, ∃ rest ∈ L ^ n, first ++ rest = w := by
  rw [pow_succ', Language.mem_mul]

/-- n single characters: a text of such characters of length n. -/
theorem mem_oneOf_pow {p : α → Bool} {n : Nat} {w : List α} :
    w ∈ oneOf p ^ n ↔ w.length = n ∧ ∀ c ∈ w, p c = true := by
  induction n generalizing w with
  | zero =>
      rw [mem_pow_zero, List.length_eq_zero_iff]
      exact ⟨fun h => ⟨h, by simp [h]⟩, fun h => h.1⟩
  | succ n ih =>
      rw [mem_pow_succ]
      constructor
      · rintro ⟨_, ⟨c, hc, rfl⟩, rest, hRest, rfl⟩
        obtain ⟨hLength, hRest⟩ := ih.mp hRest
        exact ⟨by simp [hLength], List.forall_mem_cons.mpr ⟨hc, hRest⟩⟩
      · rintro ⟨hLength, hChars⟩
        obtain ⟨c, rest, rfl⟩ := List.exists_cons_of_length_eq_add_one hLength
        rw [List.forall_mem_cons] at hChars
        exact ⟨[c], ⟨c, hChars.1, rfl⟩, rest, ih.mpr ⟨by simpa using hLength, hChars.2⟩, rfl⟩

/-- A separator in front of each further word, or behind each word but the last. -/
theorem separated_eq (L M : Language α) (n : Nat) : L * (M * L) ^ n = (L * M) ^ n * L :=
  (show SemiconjBy L (M * L) (L * M) from (mul_assoc _ _ _).symm).pow_right n

/-- Words with separators between them, by the pieces that the separators cut
the text into. -/
theorem mem_separated [DecidableEq α] {L : Language α} {d : α} (hL : ∀ w ∈ L, d ∉ w) {n : Nat} {w : List α} :
    w ∈ L * (literal [d] * L) ^ n ↔ (w.splitOn d).length = n + 1 ∧ ∀ piece ∈ w.splitOn d, piece ∈ L := by
  have hSplit (first : List α) (hFirst : first ∈ L) (rest : List α) :
      (first ++ d :: rest).splitOn d = first :: rest.splitOn d :=
    List.splitOnP_append_cons_of_forall_mem (fun c hc => by
      simpa using fun hEq : c = d => hL first hFirst (hEq ▸ hc)) d (by simp) rest
  induction n generalizing w with
  | zero =>
      rw [pow_zero, mul_one]
      constructor
      · intro hw
        have hSingle : w.splitOn d = [w] :=
          List.splitOnP_eq_singleton fun c hc => by simpa using fun hEq : c = d => hL w hw (hEq ▸ hc)
        simp [hSingle, hw]
      · rintro ⟨hLength, hPieces⟩
        obtain ⟨piece, hPiece⟩ := List.length_eq_one_iff.mp hLength
        have hText : w = piece := by
          have hJoin : [d].intercalate (w.splitOn d) = w := List.intercalate_splitOn d
          rwa [hPiece, List.intercalate_singleton, eq_comm] at hJoin
        rw [hText]
        exact hPieces piece (by simp [hPiece])
  | succ n ih =>
      rw [pow_succ', mul_assoc, Language.mem_mul]
      constructor
      · rintro ⟨first, hFirst, behind, hBehind, rfl⟩
        obtain ⟨rest, hRest, rfl⟩ := mem_literal_mul.mp hBehind
        obtain ⟨hLength, hPieces⟩ := ih.mp hRest
        rw [List.singleton_append, hSplit first hFirst]
        exact ⟨by simp [hLength], List.forall_mem_cons.mpr ⟨hFirst, hPieces⟩⟩
      · rintro ⟨hLength, hPieces⟩
        obtain ⟨first, pieces, hSplit⟩ := List.exists_cons_of_length_eq_add_one hLength
        rw [hSplit, List.length_cons] at hLength
        rw [hSplit, List.forall_mem_cons] at hPieces
        have hNe : pieces ≠ [] := List.ne_nil_of_length_pos (by omega)
        have hJoin : [d].intercalate (w.splitOn d) = w := List.intercalate_splitOn d
        rw [hSplit, List.intercalate_cons_of_ne_nil hNe, List.append_assoc] at hJoin
        have hRest : ([d].intercalate pieces).splitOn d = pieces :=
          List.splitOn_intercalate d (fun piece hPiece => hL piece (hPieces.2 piece hPiece)) hNe
        refine ⟨first, hPieces.1, _, mem_literal_mul.mpr ⟨_, ih.mpr ?_, rfl⟩, hJoin⟩
        rw [hRest]
        exact ⟨Nat.succ.inj hLength, hPieces.2⟩

/-! ### The first character of a word -/

section Cons

variable {c d : α} {w : List α} {p : α → Bool} {L M : Language α}

/-- The first character is of the kind and the others are a word. -/
theorem cons_mem_oneOf_mul : c :: w ∈ oneOf p * M ↔ p c = true ∧ w ∈ M := by
  rw [Language.mem_mul]
  constructor
  · rintro ⟨_, ⟨c', hc, rfl⟩, rest, hRest, hWord⟩
    obtain ⟨rfl, rfl⟩ := List.cons.inj hWord
    exact ⟨hc, hRest⟩
  · rintro ⟨hc, hRest⟩
    exact ⟨[c], ⟨c, hc, rfl⟩, w, hRest, rfl⟩

theorem nil_not_mem_oneOf_mul : [] ∉ oneOf p * M := by
  rw [Language.mem_mul]
  rintro ⟨_, ⟨c, -, rfl⟩, rest, -, hWord⟩
  cases hWord

/-- The first character is the literal and the others are a word. -/
theorem cons_mem_literal_mul : c :: w ∈ literal [d] * M ↔ c = d ∧ w ∈ M := by
  rw [mem_literal_mul]
  constructor
  · rintro ⟨rest, hRest, hWord⟩
    obtain ⟨rfl, rfl⟩ := List.cons.inj hWord
    exact ⟨rfl, hRest⟩
  · rintro ⟨rfl, hRest⟩
    exact ⟨w, hRest, rfl⟩

/-- The first character belongs to the run, or the run is empty. -/
theorem cons_mem_kstar_oneOf_mul :
    c :: w ∈ (oneOf p)∗ * M ↔ p c = true ∧ w ∈ (oneOf p)∗ * M ∨ c :: w ∈ M := by
  nth_rewrite 1 [← Language.one_add_self_mul_kstar_eq_kstar]
  rw [add_mul, one_mul, Language.mem_add, mul_assoc, cons_mem_oneOf_mul, or_comm]

/-- Where a repetition is not empty, it begins with its literal. -/
theorem cons_mem_kstar_literal_mul :
    c :: w ∈ (literal [d] * M)∗ ↔ c = d ∧ w ∈ M * (literal [d] * M)∗ := by
  nth_rewrite 1 [← Language.one_add_self_mul_kstar_eq_kstar]
  rw [Language.mem_add, Language.mem_one, mul_assoc, cons_mem_literal_mul]
  simp

/-- A run of characters between delimiters, in front of any other text. -/
theorem exists_delimited_append {last : α} {lasts r x : List α} (h : p last = false) :
    (∃ w ∈ literal [d] * (oneOf p)∗ * literal (last :: lasts), w ++ x = r) ↔
      ∃ behind, r = d :: behind ∧ behind.dropWhile p = last :: (lasts ++ x) := by
  constructor
  · rintro ⟨w, hw, rfl⟩
    obtain ⟨_, hFirst, _, rfl, rfl⟩ := Language.mem_mul.mp hw
    obtain ⟨run, hRun, rfl⟩ := mem_literal_mul.mp hFirst
    refine ⟨run ++ (last :: lasts ++ x), by simp, ?_⟩
    rw [List.dropWhile_append_of_pos (mem_kstar_oneOf.mp hRun), List.cons_append,
      List.dropWhile_cons_of_neg (by simp [h])]
  · rintro ⟨behind, rfl, hBehind⟩
    have hRun : behind.takeWhile p ∈ (oneOf p)∗ := mem_kstar_oneOf.mpr (List.all_eq_true.mp List.all_takeWhile)
    refine ⟨d :: behind.takeWhile p ++ last :: lasts, ?_, ?_⟩
    · exact Language.append_mem_mul (cons_mem_literal_mul.mpr ⟨rfl, hRun⟩) (mem_literal.mpr rfl)
    · rw [List.append_assoc, List.cons_append, List.cons_append, ← hBehind, List.takeWhile_append_dropWhile]

end Cons

/-! ### Characters -/

/-- Every character of every word of the language is in the class. -/
def Within (p : α → Bool) (L : Language α) : Prop := ∀ w ∈ L, ∀ c ∈ w, p c = true

/-- A single character of the kind is within every wider kind. -/
theorem within_oneOf {p q : α → Bool} (h : ∀ c, p c = true → q c = true) : Within q (oneOf p) := by
  rintro _ ⟨c, hc, rfl⟩ d hd
  rw [List.mem_singleton.mp hd]
  exact h c hc

/-- A literal is within every kind that has its characters. -/
theorem within_literal {q : α → Bool} {text : List α} (h : ∀ c ∈ text, q c = true) :
    Within q (literal text) := by
  rintro _ rfl
  exact h

/-- An alternative is within the kind if both of its sides are. -/
theorem Within.add {p : α → Bool} {L M : Language α} (hL : Within p L) (hM : Within p M) :
    Within p (L + M) := by
  intro w hw
  rcases (Language.mem_add _ _ _).mp hw with hw | hw
  · exact hL w hw
  · exact hM w hw

/-- A sequence is within the kind if both of its parts are. -/
theorem Within.mul {p : α → Bool} {L M : Language α} (hL : Within p L) (hM : Within p M) :
    Within p (L * M) := by
  intro w hw c hc
  obtain ⟨first, hFirst, second, hSecond, rfl⟩ := Language.mem_mul.mp hw
  rcases List.mem_append.mp hc with hc | hc
  · exact hL first hFirst c hc
  · exact hM second hSecond c hc

/-- A counted repetition is within the kind if its words are. -/
theorem Within.pow {p : α → Bool} {L : Language α} (hL : Within p L) (n : Nat) : Within p (L ^ n) := by
  induction n with
  | zero =>
      intro w hw
      simp [mem_pow_zero.mp hw]
  | succ n ih =>
      rw [pow_succ]
      exact ih.mul hL

theorem Within.upTo {p : α → Bool} {L : Language α} (hL : Within p L) (n : Nat) : Within p (upTo n L) := by
  intro w hw
  obtain ⟨k, _, hw⟩ := mem_upTo.mp hw
  exact hL.pow k w hw

/-- A repetition of any length is within the kind if its words are. -/
theorem Within.kstar {p : α → Bool} {L : Language α} (hL : Within p L) : Within p L∗ := by
  intro w
  refine @kstar_induction _ _ (fun w => ∀ c ∈ w, p c = true) (by simp) ?_ w
  intro first hFirst rest hRest c hc
  rcases List.mem_append.mp hc with hc | hc
  · exact hL first hFirst c hc
  · exact hRest c hc

theorem Within.optional {p : α → Bool} {L : Language α} (hL : Within p L) : Within p (optional L) := by
  intro w hw
  rcases mem_optional.mp hw with rfl | hw
  · simp
  · exact hL w hw

theorem Within.atLeastOne {p : α → Bool} {L : Language α} (hL : Within p L) :
    Within p (atLeastOne L) :=
  hL.mul hL.kstar

end Abnf
