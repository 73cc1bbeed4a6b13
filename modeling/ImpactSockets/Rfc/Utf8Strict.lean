import ImpactSockets.Library.Abnf
import ImpactSockets.Rfc.Utf8RoundTrip

/-! What the UTF-8 decoder accepts, against the syntax of RFC 3629. -/
namespace ImpactSockets.Utf8

open Abnf
open scoped Computability

/-! ### Syntax -/

namespace Grammar

/-- `%xFF-LL`. -/
def range (first last : UInt8) : Language UInt8 := oneOf fun c => first ≤ c && c ≤ last

/-- `UTF8-tail = %x80-BF`. -/
def utf8Tail : Language UInt8 := range 0x80 0xBF

/-- `UTF8-1 = %x00-7F`. -/
def utf8One : Language UInt8 := range 0x00 0x7F

/-- `UTF8-2 = %xC2-DF UTF8-tail`. -/
def utf8Two : Language UInt8 := range 0xC2 0xDF * utf8Tail

/-- `UTF8-3`, one alternative a line. -/
def utf8Three : Language UInt8 :=
  literal [0xE0] * (range 0xA0 0xBF * utf8Tail) +
    range 0xE1 0xEC * (utf8Tail * utf8Tail) +
    literal [0xED] * (range 0x80 0x9F * utf8Tail) +
    range 0xEE 0xEF * (utf8Tail * utf8Tail)

/-- `UTF8-4`, one alternative a line. -/
def utf8Four : Language UInt8 :=
  literal [0xF0] * (range 0x90 0xBF * (utf8Tail * utf8Tail)) +
    range 0xF1 0xF3 * (utf8Tail * (utf8Tail * utf8Tail)) +
    literal [0xF4] * (range 0x80 0x8F * (utf8Tail * utf8Tail))

/-- `UTF8-char = UTF8-1 / UTF8-2 / UTF8-3 / UTF8-4`. -/
def utf8Char : Language UInt8 := utf8One + utf8Two + utf8Three + utf8Four

/-- `UTF8-octets = *( UTF8-char )`. -/
def utf8Octets : Language UInt8 := utf8Char∗

end Grammar

/-! ### What is accepted -/

/-- Headers and trailers are in place, when `count` trailers are owed to begin
with. The last symbol may be cut short. -/
inductive InPlace : Nat → Bytes → Prop where
  | nil (count : Nat) : InPlace count []
  | ascii {c : UInt8} {rest : Bytes} (hc : c < 0x80) (hRest : InPlace 0 rest) : InPlace 0 (c :: rest)
  | header {c : UInt8} {rest : Bytes} {count : Nat} (hc : headerState c = some count) (hRest : InPlace count rest) :
      InPlace 0 (c :: rest)
  | trailer {c : UInt8} {rest : Bytes} {count : Nat} (hc : isTrailer c = true) (hRest : InPlace count rest) :
      InPlace (count + 1) (c :: rest)

theorem headerState_ascii {c : UInt8} (h : c < 0x80) : headerState c = none := by
  rw [headerState_eq, if_pos (UInt8.lt_trans h (by decide))]

/-- The loop accepts exactly the octets that are in place for its state. -/
theorem deserializeLoop_ok_iff (s : Bytes) (st : DecodeState) :
    (deserializeLoop s st).ok = true ↔ InPlace st.state s := by
  induction s generalizing st with
  | nil => exact iff_of_true rfl (.nil _)
  | cons c rest ih =>
      obtain ⟨state, symbol, result⟩ := st
      cases state with
      | zero =>
          by_cases hAscii : c < 0x80
          · rw [show c :: rest = [c] ++ rest from rfl, readsSymbol_ascii hAscii rest symbol result, ih]
            refine ⟨.ascii hAscii, fun h => ?_⟩
            cases h with
            | ascii _ hRest => exact hRest
            | header hc _ =>
                rw [headerState_ascii hAscii] at hc
                cases hc
          · have hHigh : ¬(c &&& 0x80 == 0) = true := by
              rwa [ascii_iff, decide_eq_true_eq]
            rw [deserializeLoop, deserializeStep, if_pos rfl, if_neg hHigh]
            cases hState : headerState c with
            | none =>
                refine iff_of_false (by simp) fun h => ?_
                cases h with
                | ascii hc _ => exact hAscii hc
                | header hc _ =>
                    rw [hState] at hc
                    cases hc
            | some count =>
                refine (ih _).trans ⟨.header hState, fun h => ?_⟩
                cases h with
                | ascii hc _ => exact (hAscii hc).elim
                | header hc hRest =>
                    rw [hState] at hc
                    cases hc
                    exact hRest
      | succ count =>
          by_cases hTrailer : isTrailer c = true
          · rw [deserializeLoop, deserializeStep_trailer hTrailer]
            have hState (st : DecodeState) (hst : st.state = count) :
                (deserializeLoop rest st).ok = true ↔ InPlace (count + 1) (c :: rest) := by
              rw [ih, hst]
              refine ⟨.trailer hTrailer, fun h => ?_⟩
              cases h with
              | trailer _ hRest => exact hRest
            cases count with
            | zero => exact hState _ rfl
            | succ count => exact hState _ rfl
          · rw [deserializeLoop, deserializeStep, if_neg (Nat.succ_ne_zero count), isTrailer_iff, if_neg hTrailer]
            refine iff_of_false (by simp) fun h => ?_
            cases h with
            | trailer hc _ => exact hTrailer hc

/-! ### Strictness -/

/-- The headers of overlong forms of two bytes, and of numbers above every code
point. -/
def badHeader (c : UInt8) : Bool := c == 0xC0 || c == 0xC1 || (0xF5 ≤ c && c ≤ 0xF7)

/-- A header and a first trailer of an overlong form, of a surrogate, or of a
number above every code point. -/
def badPair (head first : UInt8) : Bool :=
  (head == 0xE0 && first < 0xA0) || (head == 0xED && 0xA0 ≤ first) ||
    (head == 0xF0 && first < 0x90) || (head == 0xF4 && 0x90 ≤ first)

/-- Nothing in the text makes it differ from UTF-8, where its headers and
trailers are in place. -/
structure Strict (s : Bytes) : Prop where
  header : ∀ c ∈ s, badHeader c = false
  pair : ∀ before head first after, s = before ++ head :: first :: after → badPair head first = false
  complete : ∀ before head after count, s = before ++ head :: after → headerState head = some count →
    count ≤ after.length

theorem strict_nil : Strict [] where
  header := by simp
  pair before head first after h := by simp at h
  complete before head after count h := by simp at h

/-- The conditions of the grammar at the first octet. -/
theorem strict_cons {c : UInt8} {rest : Bytes} :
    Strict (c :: rest) ↔ badHeader c = false ∧ (∀ first ∈ rest.head?, badPair c first = false) ∧
      (∀ count, headerState c = some count → count ≤ rest.length) ∧ Strict rest := by
  constructor
  · intro h
    refine ⟨h.header c (List.mem_cons_self ..), fun first hFirst => ?_,
      fun count => h.complete [] c rest count rfl, ?_, ?_, ?_⟩
    · obtain ⟨after, rfl⟩ := List.head?_eq_some_iff.mp hFirst
      exact h.pair [] c first after rfl
    · exact fun d hd => h.header d (List.mem_cons_of_mem _ hd)
    · rintro before head first after rfl
      exact h.pair (c :: before) head first after rfl
    · rintro before head after count rfl
      exact h.complete (c :: before) head after count rfl
  · rintro ⟨hHeader, hPair, hComplete, hRest⟩
    refine ⟨List.forall_mem_cons.mpr ⟨hHeader, hRest.header⟩, ?_, ?_⟩
    · intro before head first after hEq
      rcases before with _ | ⟨d, before⟩
      · obtain ⟨rfl, rfl⟩ := List.cons.inj hEq
        exact hPair first rfl
      · exact hRest.pair before head first after (List.cons.inj hEq).2
    · intro before head after count hEq
      rcases before with _ | ⟨d, before⟩
      · obtain ⟨rfl, rfl⟩ := List.cons.inj hEq
        exact hComplete count
      · exact hRest.complete before head after count (List.cons.inj hEq).2

set_option maxRecDepth 4000 in
/-- A byte below the headers. -/
theorem not_header : ∀ c : UInt8, c < 0xC0 → badHeader c = false ∧ headerState c = none ∧
    (c == 0xE0) = false ∧ (c == 0xED) = false ∧ (c == 0xF0) = false ∧ (c == 0xF4) = false := by
  decide

/-- An octet that is no header has no conditions. -/
theorem strict_cons_low {c : UInt8} (h : c < 0xC0) {rest : Bytes} : Strict (c :: rest) ↔ Strict rest := by
  obtain ⟨hHeader, hState, hPairs⟩ := not_header c h
  rw [strict_cons]
  simp [hHeader, hState, badPair, hPairs]

theorem low_of_isTrailer {c : UInt8} (h : isTrailer c = true) : c < 0xC0 := by
  simp only [isTrailer, Bool.and_eq_true, decide_eq_true_eq, UInt8.le_iff_toNat_le] at h
  exact UInt8.lt_iff_toNat_lt.mpr (Nat.lt_succ_of_le h.2)

/-- A run of trailers has no conditions. -/
theorem strict_trailers {trailers rest : Bytes} (h : ∀ c ∈ trailers, isTrailer c = true) :
    Strict (trailers ++ rest) ↔ Strict rest := by
  induction trailers with
  | nil => rfl
  | cons c trailers ih =>
      rw [List.forall_mem_cons] at h
      rw [List.cons_append, strict_cons_low (low_of_isTrailer h.1), ih h.2]

/-- A symbol of more than one byte with its trailers. -/
structure Symbol (head first : UInt8) (further : Bytes) : Prop where
  header : headerState head = some (further.length + 1)
  trailers : ∀ c ∈ first :: further, isTrailer c = true
  notBadHeader : badHeader head = false
  notBadPair : badPair head first = false

/-- A symbol of the grammar meets the conditions at its header. -/
theorem Symbol.strict {head first : UInt8} {further : Bytes} (h : Symbol head first further) {rest : Bytes} :
    Strict (head :: first :: further ++ rest) ↔ Strict rest := by
  rw [List.cons_append, strict_cons, strict_trailers h.trailers]
  simp only [h.notBadHeader, h.header, true_and]
  refine and_iff_right ?_ |>.trans (and_iff_right ?_)
  · simpa using h.notBadPair
  · rintro count hCount
    cases hCount
    simp

/-- As many trailers as are expected are in place. -/
theorem inPlace_trailers {trailers rest : Bytes} (h : ∀ c ∈ trailers, isTrailer c = true) :
    InPlace trailers.length (trailers ++ rest) ↔ InPlace 0 rest := by
  induction trailers with
  | nil => rfl
  | cons c trailers ih =>
      rw [List.forall_mem_cons] at h
      rw [← ih h.2, List.cons_append, List.length_cons]
      constructor
      · intro hPlace
        cases hPlace with
        | trailer _ hRest => exact hRest
      · exact .trailer h.1

/-- The trailers that are owed, where they are there. -/
theorem inPlace_split {count : Nat} {s : Bytes} (h : InPlace count s) (hLength : count ≤ s.length) :
    ∃ trailers rest, s = trailers ++ rest ∧ trailers.length = count ∧ (∀ c ∈ trailers, isTrailer c = true) ∧
      InPlace 0 rest := by
  induction count generalizing s with
  | zero => exact ⟨[], s, rfl, rfl, by simp, h⟩
  | succ count ih =>
      cases h with
      | nil => simp at hLength
      | @trailer c rest _ hc hRest =>
          obtain ⟨trailers, rest, rfl, rfl, hTrailers, hPlace⟩ := ih hRest (by simpa using hLength)
          exact ⟨c :: trailers, rest, rfl, rfl, List.forall_mem_cons.mpr ⟨hc, hTrailers⟩, hPlace⟩

/-! ### Symbols of the syntax -/

/-- A header by the number of its trailers. -/
theorem header_cases {c : UInt8} {count : Nat} (h : headerState c = some count) :
    (count = 1 ∧ 0xC0 ≤ c.toNat ∧ c.toNat < 0xE0) ∨ (count = 2 ∧ 0xE0 ≤ c.toNat ∧ c.toNat < 0xF0) ∨
      (count = 3 ∧ 0xF0 ≤ c.toNat ∧ c.toNat < 0xF8) := by
  rw [headerState_eq] at h
  simp only [UInt8.lt_iff_toNat_lt, UInt8.reduceToNat] at h
  split_ifs at h <;> cases h <;> omega

/-- The headers that the grammar has no symbol for. -/
theorem badHeader_iff (c : UInt8) :
    badHeader c = false ↔ c.toNat ≠ 0xC0 ∧ c.toNat ≠ 0xC1 ∧ ¬(0xF5 ≤ c.toNat ∧ c.toNat ≤ 0xF7) := by
  simp only [badHeader, Bool.or_eq_false_iff, beq_eq_false_iff_ne, ne_eq, ← UInt8.toNat_inj, UInt8.reduceToNat,
    Bool.and_eq_false_iff, decide_eq_false_iff_not, UInt8.le_iff_toNat_le]
  tauto

/-- The second octets that the grammar does not allow behind four of the headers. -/
theorem badPair_iff (head first : UInt8) :
    badPair head first = false ↔ (head.toNat = 0xE0 → 0xA0 ≤ first.toNat) ∧ (head.toNat = 0xED → first.toNat < 0xA0) ∧
      (head.toNat = 0xF0 → 0x90 ≤ first.toNat) ∧ (head.toNat = 0xF4 → first.toNat < 0x90) := by
  simp only [badPair, Bool.or_eq_false_iff, Bool.and_eq_false_iff, beq_eq_false_iff_ne, ne_eq, ← UInt8.toNat_inj,
    UInt8.reduceToNat, decide_eq_false_iff_not, UInt8.le_iff_toNat_le, UInt8.lt_iff_toNat_lt]
  omega

theorem isTrailer_iff_toNat (c : UInt8) : isTrailer c = true ↔ 0x80 ≤ c.toNat ∧ c.toNat ≤ 0xBF := by
  simp only [isTrailer, Bool.and_eq_true, decide_eq_true_eq, UInt8.le_iff_toNat_le, UInt8.reduceToNat]

theorem mem_range {first last : UInt8} {w : Bytes} :
    w ∈ Grammar.range first last ↔ ∃ c : UInt8, (first.toNat ≤ c.toNat ∧ c.toNat ≤ last.toNat) ∧ w = [c] := by
  simp only [Grammar.range, mem_oneOf, Bool.and_eq_true, decide_eq_true_eq, UInt8.le_iff_toNat_le]

theorem mem_range_mul {first last : UInt8} {L : Language UInt8} {w : Bytes} :
    w ∈ Grammar.range first last * L ↔
      ∃ c : UInt8, (first.toNat ≤ c.toNat ∧ c.toNat ≤ last.toNat) ∧ ∃ rest ∈ L, w = c :: rest := by
  rw [Language.mem_mul]
  constructor
  · rintro ⟨_, hFirst, rest, hRest, rfl⟩
    obtain ⟨c, hc, rfl⟩ := mem_range.mp hFirst
    exact ⟨c, hc, rest, hRest, rfl⟩
  · rintro ⟨c, hc, rest, hRest, rfl⟩
    exact ⟨[c], mem_range.mpr ⟨c, hc, rfl⟩, rest, hRest, rfl⟩

/-- A symbol of two octets, as bounds. -/
theorem symbol_two {head first : UInt8} :
    Symbol head first [] ↔ (0xC2 ≤ head.toNat ∧ head.toNat ≤ 0xDF) ∧ isTrailer first = true := by
  constructor
  · rintro ⟨hHeader, hTrailers, hBadHeader, _⟩
    rw [badHeader_iff] at hBadHeader
    have hCases := header_cases hHeader
    simp only [List.length_nil] at hCases
    exact ⟨by omega, by simpa using hTrailers⟩
  · rintro ⟨hHead, hFirst⟩
    refine ⟨(headerState_of_range head).1 (by omega) (by omega), by simpa using hFirst, ?_, ?_⟩
    · rw [badHeader_iff]
      omega
    · rw [badPair_iff]
      omega

/-- A symbol of three octets, as bounds. -/
theorem symbol_three {head first t : UInt8} :
    Symbol head first [t] ↔ (0xE0 ≤ head.toNat ∧ head.toNat < 0xF0) ∧
      ((head.toNat = 0xE0 → 0xA0 ≤ first.toNat) ∧ (head.toNat = 0xED → first.toNat < 0xA0)) ∧
      isTrailer first = true ∧ isTrailer t = true := by
  constructor
  · rintro ⟨hHeader, hTrailers, _, hBadPair⟩
    rw [badPair_iff] at hBadPair
    have hCases := header_cases hHeader
    simp only [List.length_cons, List.length_nil] at hCases
    exact ⟨by omega, ⟨hBadPair.1, hBadPair.2.1⟩, by simpa using hTrailers⟩
  · rintro ⟨hHead, hPair, hTrailers⟩
    refine ⟨(headerState_of_range head).2.1 hHead.1 hHead.2, by simpa using hTrailers, ?_, ?_⟩
    · rw [badHeader_iff]
      omega
    · rw [badPair_iff]
      omega

/-- A symbol of four octets, as bounds. -/
theorem symbol_four {head first t u : UInt8} :
    Symbol head first [t, u] ↔ (0xF0 ≤ head.toNat ∧ head.toNat ≤ 0xF4) ∧
      ((head.toNat = 0xF0 → 0x90 ≤ first.toNat) ∧ (head.toNat = 0xF4 → first.toNat < 0x90)) ∧
      isTrailer first = true ∧ isTrailer t = true ∧ isTrailer u = true := by
  constructor
  · rintro ⟨hHeader, hTrailers, hBadHeader, hBadPair⟩
    rw [badHeader_iff] at hBadHeader
    rw [badPair_iff] at hBadPair
    have hCases := header_cases hHeader
    simp only [List.length_cons, List.length_nil] at hCases
    exact ⟨by omega, hBadPair.2.2, by simpa using hTrailers⟩
  · rintro ⟨hHead, hPair, hTrailers⟩
    refine ⟨(headerState_of_range head).2.2 hHead.1 (by omega), by simpa using hTrailers, ?_, ?_⟩
    · rw [badHeader_iff]
      omega
    · rw [badPair_iff]
      omega

theorem mem_utf8Tail {w : Bytes} : w ∈ Grammar.utf8Tail ↔ ∃ t, isTrailer t = true ∧ w = [t] := by
  simp only [Grammar.utf8Tail, mem_range, isTrailer_iff_toNat, UInt8.reduceToNat]

theorem mem_utf8Tail_mul {L : Language UInt8} {w : Bytes} :
    w ∈ Grammar.utf8Tail * L ↔ ∃ t, isTrailer t = true ∧ ∃ rest ∈ L, w = t :: rest := by
  simp only [Grammar.utf8Tail, mem_range_mul, isTrailer_iff_toNat, UInt8.reduceToNat]

/-- The production for two octets has exactly these symbols. -/
theorem mem_utf8Two {w : Bytes} : w ∈ Grammar.utf8Two ↔ ∃ head first, w = [head, first] ∧ Symbol head first [] := by
  rw [Grammar.utf8Two, mem_range_mul]
  simp only [mem_utf8Tail, UInt8.reduceToNat, symbol_two]
  constructor
  · rintro ⟨head, hHead, _, ⟨first, hFirst, rfl⟩, rfl⟩
    exact ⟨head, first, rfl, hHead, hFirst⟩
  · rintro ⟨head, first, rfl, hHead, hFirst⟩
    exact ⟨head, hHead, [first], ⟨first, hFirst, rfl⟩, rfl⟩

/-- The production for three octets, with its four alternatives. -/
theorem mem_utf8Three {w : Bytes} :
    w ∈ Grammar.utf8Three ↔ ∃ head first t, w = [head, first, t] ∧ Symbol head first [t] := by
  simp only [Grammar.utf8Three, Language.mem_add, mem_literal_mul, mem_range_mul, mem_utf8Tail_mul, mem_utf8Tail,
    UInt8.reduceToNat, symbol_three]
  have hTrailer := isTrailer_iff_toNat
  constructor
  · rintro (((⟨_, ⟨first, hFirst, _, ⟨t, ht, rfl⟩, rfl⟩, rfl⟩ | ⟨head, hHead, _, ⟨first, hFirst, _, ⟨t, ht, rfl⟩, rfl⟩,
      rfl⟩) | ⟨_, ⟨first, hFirst, _, ⟨t, ht, rfl⟩, rfl⟩, rfl⟩) | ⟨head, hHead, _, ⟨first, hFirst, _, ⟨t, ht, rfl⟩, rfl⟩,
      rfl⟩)
    · exact ⟨0xE0, first, t, rfl, by decide, ⟨fun _ => hFirst.1, fun h => absurd h (by decide)⟩,
        (hTrailer first).mpr (by omega), ht⟩
    · exact ⟨head, first, t, rfl, by omega, by omega, hFirst, ht⟩
    · exact ⟨0xED, first, t, rfl, by decide, ⟨fun h => absurd h (by decide), fun _ => by omega⟩,
        (hTrailer first).mpr (by omega), ht⟩
    · exact ⟨head, first, t, rfl, by omega, by omega, hFirst, ht⟩
  · rintro ⟨head, first, t, rfl, hHead, hPair, hFirst, ht⟩
    have hRange := (hTrailer first).mp hFirst
    by_cases hE0 : head.toNat = 0xE0
    · obtain rfl : head = 0xE0 := UInt8.toNat_inj.mp hE0
      exact .inl (.inl (.inl ⟨_, ⟨first, ⟨hPair.1 rfl, hRange.2⟩, _, ⟨t, ht, rfl⟩, rfl⟩, rfl⟩))
    by_cases hED : head.toNat = 0xED
    · obtain rfl : head = 0xED := UInt8.toNat_inj.mp hED
      have hSmall := hPair.2 rfl
      exact .inl (.inr ⟨_, ⟨first, ⟨hRange.1, by omega⟩, _, ⟨t, ht, rfl⟩, rfl⟩, rfl⟩)
    by_cases hLow : head.toNat ≤ 0xEC
    · exact .inl (.inl (.inr ⟨head, by omega, _, ⟨first, hFirst, _, ⟨t, ht, rfl⟩, rfl⟩, rfl⟩))
    · exact .inr ⟨head, by omega, _, ⟨first, hFirst, _, ⟨t, ht, rfl⟩, rfl⟩, rfl⟩

/-- The production for four octets, with its three alternatives. -/
theorem mem_utf8Four {w : Bytes} :
    w ∈ Grammar.utf8Four ↔ ∃ head first t u, w = [head, first, t, u] ∧ Symbol head first [t, u] := by
  simp only [Grammar.utf8Four, Language.mem_add, mem_literal_mul, mem_range_mul, mem_utf8Tail_mul, mem_utf8Tail,
    UInt8.reduceToNat, symbol_four]
  have hTrailer := isTrailer_iff_toNat
  constructor
  · rintro ((⟨_, ⟨first, hFirst, _, ⟨t, ht, _, ⟨u, hu, rfl⟩, rfl⟩, rfl⟩, rfl⟩ | ⟨head, hHead, _, ⟨first, hFirst, _,
      ⟨t, ht, _, ⟨u, hu, rfl⟩, rfl⟩, rfl⟩, rfl⟩) | ⟨_, ⟨first, hFirst, _, ⟨t, ht, _, ⟨u, hu, rfl⟩, rfl⟩, rfl⟩, rfl⟩)
    · exact ⟨0xF0, first, t, u, rfl, by decide, ⟨fun _ => hFirst.1, fun h => absurd h (by decide)⟩,
        (hTrailer first).mpr (by omega), ht, hu⟩
    · exact ⟨head, first, t, u, rfl, by omega, by omega, hFirst, ht, hu⟩
    · exact ⟨0xF4, first, t, u, rfl, by decide, ⟨fun h => absurd h (by decide), fun _ => by omega⟩,
        (hTrailer first).mpr (by omega), ht, hu⟩
  · rintro ⟨head, first, t, u, rfl, hHead, hPair, hFirst, ht, hu⟩
    have hRange := (hTrailer first).mp hFirst
    by_cases hF0 : head.toNat = 0xF0
    · obtain rfl : head = 0xF0 := UInt8.toNat_inj.mp hF0
      exact .inl (.inl ⟨_, ⟨first, ⟨hPair.1 rfl, hRange.2⟩, _, ⟨t, ht, _, ⟨u, hu, rfl⟩, rfl⟩, rfl⟩, rfl⟩)
    by_cases hF4 : head.toNat = 0xF4
    · obtain rfl : head = 0xF4 := UInt8.toNat_inj.mp hF4
      have hSmall := hPair.2 rfl
      exact .inr ⟨_, ⟨first, ⟨hRange.1, by omega⟩, _, ⟨t, ht, _, ⟨u, hu, rfl⟩, rfl⟩, rfl⟩, rfl⟩
    · exact .inl (.inr ⟨head, by omega, _, ⟨first, hFirst, _, ⟨t, ht, _, ⟨u, hu, rfl⟩, rfl⟩, rfl⟩, rfl⟩)

/-- The lengths of symbols. -/
theorem Symbol.cases {head first : UInt8} {further : Bytes} (h : Symbol head first further) :
    further = [] ∨ (∃ t, further = [t]) ∨ ∃ t u, further = [t, u] := by
  have hCases := header_cases h.header
  rcases further with _ | ⟨t, _ | ⟨u, _ | ⟨v, further⟩⟩⟩
  · exact .inl rfl
  · exact .inr (.inl ⟨t, rfl⟩)
  · exact .inr (.inr ⟨t, u, rfl⟩)
  · simp only [List.length_cons] at hCases
    omega

/-- The symbols of the syntax. -/
theorem mem_utf8Char {w : Bytes} :
    w ∈ Grammar.utf8Char ↔ (∃ c : UInt8, c < 0x80 ∧ w = [c]) ∨
      ∃ head first further, w = head :: first :: further ∧ Symbol head first further := by
  have hOne : w ∈ Grammar.utf8One ↔ ∃ c : UInt8, c < 0x80 ∧ w = [c] := by
    simp only [Grammar.utf8One, mem_range, UInt8.lt_iff_toNat_lt, UInt8.reduceToNat, Nat.zero_le, true_and]
    exact exists_congr fun c => and_congr_left fun _ => Nat.lt_succ_iff.symm
  rw [Grammar.utf8Char, Language.mem_add, Language.mem_add, Language.mem_add, hOne, mem_utf8Two, mem_utf8Three,
    mem_utf8Four, or_assoc, or_assoc]
  refine or_congr_right ⟨?_, ?_⟩
  · rintro (⟨head, first, rfl, h⟩ | ⟨head, first, t, rfl, h⟩ | ⟨head, first, t, u, rfl, h⟩)
    · exact ⟨head, first, [], rfl, h⟩
    · exact ⟨head, first, [t], rfl, h⟩
    · exact ⟨head, first, [t, u], rfl, h⟩
  · rintro ⟨head, first, further, rfl, h⟩
    rcases h.cases with rfl | ⟨t, rfl⟩ | ⟨t, u, rfl⟩
    · exact .inl ⟨head, first, rfl, h⟩
    · exact .inr (.inl ⟨head, first, t, rfl, h⟩)
    · exact .inr (.inr ⟨head, first, t, u, rfl, h⟩)

/-- A scalar value is below 0x110000 and no surrogate. -/
theorem scalar_iff (symbol : UInt32) :
    Scalar symbol ↔ symbol.toNat ≤ 0x10FFFF ∧ ¬(0xD800 ≤ symbol.toNat ∧ symbol.toNat ≤ 0xDFFF) := by
  simp only [Scalar, UInt32.le_iff_toNat_le, UInt32.reduceToNat]

/-- A trailer is written as it was read. -/
theorem trailer_eq {bits : UInt32} {c : UInt8} (h : isTrailer c = true) (hLow : bits.toNat % 64 = c.toNat % 64) :
    trailer bits = c := by
  rw [isTrailer_iff_toNat] at h
  rw [← UInt8.toNat_inj, toNat_trailer]
  omega

/-- A symbol of the syntax holds a scalar value, and is what the encoder writes for it. -/
theorem encode_decoded {head first : UInt8} {further : Bytes} (h : Symbol head first further) :
    Scalar (decoded head (first :: further)) ∧ encode (decoded head (first :: further)) = head :: first :: further := by
  have hTrailer := isTrailer_iff_toNat
  rcases h.cases with rfl | ⟨t, rfl⟩ | ⟨t, u, rfl⟩
  · obtain ⟨hHead, hFirst⟩ := symbol_two.mp h
    have hFirstRange := (hTrailer first).mp hFirst
    have hValue := toNat_decoded_two head first
    obtain ⟨symbol, hSymbol⟩ : ∃ symbol, symbol = decoded head [first] := ⟨_, rfl⟩
    rw [← hSymbol] at hValue ⊢
    have hHeader : header 0xC0 (symbol >>> 6) = head := by
      rw [← UInt8.toNat_inj, toNat_header_two (by omega)]
      omega
    refine ⟨(scalar_iff symbol).mpr (by omega), ?_⟩
    rw [encode_two (by omega) (by omega), hHeader, trailer_eq hFirst (by omega)]
  · obtain ⟨hHead, hPair, hFirst, ht⟩ := symbol_three.mp h
    have hFirstRange := (hTrailer first).mp hFirst
    have hValue := toNat_decoded_three head first t
    obtain ⟨symbol, hSymbol⟩ : ∃ symbol, symbol = decoded head [first, t] := ⟨_, rfl⟩
    rw [← hSymbol] at hValue ⊢
    have hSix := (toNat_shifted symbol).1
    have hHeader : header 0xE0 (symbol >>> 12) = head := by
      rw [← UInt8.toNat_inj, toNat_header_three (by omega)]
      omega
    refine ⟨(scalar_iff symbol).mpr (by omega), ?_⟩
    rw [encode_three (by omega) (by omega), hHeader, trailer_eq hFirst (by omega), trailer_eq ht (by omega)]
  · obtain ⟨hHead, hPair, hFirst, ht, hu⟩ := symbol_four.mp h
    have hFirstRange := (hTrailer first).mp hFirst
    have hValue := toNat_decoded_four head first t u
    obtain ⟨symbol, hSymbol⟩ : ∃ symbol, symbol = decoded head [first, t, u] := ⟨_, rfl⟩
    rw [← hSymbol] at hValue ⊢
    obtain ⟨hSix, hTwelve, _⟩ := toNat_shifted symbol
    have hHeader : header 0xF0 (symbol >>> 18) = head := by
      rw [← UInt8.toNat_inj, toNat_header_four (by omega)]
      omega
    refine ⟨(scalar_iff symbol).mpr (by omega), ?_⟩
    rw [encode_four (by omega), hHeader, trailer_eq hFirst (by omega), trailer_eq ht (by omega),
      trailer_eq hu (by omega)]

/-! ### Texts -/

/-- UTF-8 is what has its headers and trailers in place and is strict. -/
theorem mem_utf8Octets_iff {s : Bytes} : s ∈ Grammar.utf8Octets ↔ InPlace 0 s ∧ Strict s := by
  constructor
  · refine @kstar_induction _ Grammar.utf8Char (fun s => InPlace 0 s ∧ Strict s) ⟨.nil 0, strict_nil⟩ ?_ s
    rintro text hText rest ⟨hPlace, hStrict⟩
    rcases mem_utf8Char.mp hText with ⟨c, hc, rfl⟩ | ⟨head, first, further, rfl, hSymbol⟩
    · exact ⟨.ascii hc hPlace, (strict_cons_low (UInt8.lt_trans hc (by decide))).mpr hStrict⟩
    · exact ⟨.header hSymbol.header ((inPlace_trailers hSymbol.trailers).mpr hPlace), hSymbol.strict.mpr hStrict⟩
  · rintro ⟨hPlace, hStrict⟩
    induction hLength : s.length using Nat.strong_induction_on generalizing s with
    | _ length ih =>
        subst hLength
        cases hPlace with
        | nil => exact Language.nil_mem_kstar _
        | @ascii c rest hc hRest =>
            have hChar : [c] ∈ Grammar.utf8Char := mem_utf8Char.mpr (.inl ⟨c, hc, rfl⟩)
            have hTail := (strict_cons_low (UInt8.lt_trans hc (by decide))).mp hStrict
            exact cons_mem_kstar hChar (ih rest.length (by simp) hRest hTail rfl)
        | @header head rest count hHead hRest =>
            obtain ⟨hBad, hPair, hComplete, hTail⟩ := strict_cons.mp hStrict
            obtain ⟨trailers, rest, rfl, rfl, hTrailers, hPlace⟩ := inPlace_split hRest (hComplete count hHead)
            obtain ⟨first, further, rfl⟩ : ∃ first further, trailers = first :: further := by
              refine List.exists_cons_of_ne_nil ?_
              rintro rfl
              have hCases := header_cases hHead
              simp at hCases
            have hSymbol : Symbol head first further := ⟨hHead, hTrailers, hBad, hPair first rfl⟩
            have hChar : head :: first :: further ∈ Grammar.utf8Char :=
              mem_utf8Char.mpr (.inr ⟨head, first, further, rfl, hSymbol⟩)
            refine append_mem_kstar (mem_kstar_of_mem hChar)
              (ih rest.length ?_ hPlace ((strict_trailers hTrailers).mp hTail) rfl)
            simp only [List.length_cons, List.length_append]
            omega

/-- UTF-8 is what scalar values are encoded to. -/
theorem encoded_of_mem {s : Bytes} (h : s ∈ Grammar.utf8Octets) :
    ∃ w : List UInt32, (∀ symbol ∈ w, Scalar symbol) ∧ s = w.flatMap encode := by
  refine @kstar_induction _ Grammar.utf8Char
    (fun s => ∃ w : List UInt32, (∀ symbol ∈ w, Scalar symbol) ∧ s = w.flatMap encode) ⟨[], by simp, rfl⟩ ?_ s h
  rintro text hText rest ⟨w, hw, rfl⟩
  rcases mem_utf8Char.mp hText with ⟨c, hc, rfl⟩ | ⟨head, first, further, rfl, hSymbol⟩
  · have hValue : c.toUInt32.toNat < 0x80 := by
      rw [UInt8.toNat_toUInt32]
      exact UInt8.lt_iff_toNat_lt.mp hc
    have hByte : c.toUInt32.toUInt8 = c := by
      rw [← UInt8.toNat_inj, UInt32.toNat_toUInt8, UInt8.toNat_toUInt32]
      exact Nat.mod_eq_of_lt c.toNat_lt
    refine ⟨c.toUInt32 :: w, List.forall_mem_cons.mpr ⟨(scalar_iff _).mpr (by omega), hw⟩, ?_⟩
    rw [List.flatMap_cons, encode_one (by omega), hByte]
  · obtain ⟨hScalar, hEncode⟩ := encode_decoded hSymbol
    exact ⟨decoded head (first :: further) :: w, List.forall_mem_cons.mpr ⟨hScalar, hw⟩, by
      rw [List.flatMap_cons, hEncode]⟩

/-- The text is accepted exactly if it is UTF-8, and if it is accepted it is what
its code points are serialized to. -/
def ExactlyAccepted (s : Bytes) : Prop :=
  ((deserialize s (some [])).ok = true ↔ s ∈ Grammar.utf8Octets) ∧
    ((deserialize s (some [])).ok = true → ∃ r, (deserialize s (some [])).result = some r ∧
      serialize r (some []) = ⟨true, .success, some s⟩)

/-- A text whose headers and trailers are in place has to be strict. -/
theorem exactlyAccepted_iff (s : Bytes) : ExactlyAccepted s ↔ (InPlace 0 s → Strict s) := by
  have hAccepted : (deserialize s (some [])).ok = true ↔ InPlace 0 s := deserializeLoop_ok_iff s ⟨0, 0, some []⟩
  unfold ExactlyAccepted
  rw [hAccepted, mem_utf8Octets_iff]
  constructor
  · rintro ⟨hIff, _⟩ hPlace
    exact (hIff.mp hPlace).2
  · intro hStrict
    refine ⟨⟨fun hPlace => ⟨hPlace, hStrict hPlace⟩, And.left⟩, fun hPlace => ?_⟩
    obtain ⟨w, hw, rfl⟩ := encoded_of_mem (mem_utf8Octets_iff.mpr ⟨hPlace, hStrict hPlace⟩)
    refine ⟨w, ?_, serialize_of_scalars hw (some [])⟩
    rw [deserialize, deserializeLoop_encoded hw]
    rfl

/-- The overlong form of U+0000 is accepted. -/
theorem overlongNull_accepted : ¬ExactlyAccepted [0xC0, 0x80] := by
  intro h
  have hMem := h.1.mp (by decide)
  exact absurd ((mem_utf8Octets_iff.mp hMem).2.header 0xC0 (List.mem_cons_self ..)) (by decide)

end ImpactSockets.Utf8
