import ImpactSockets.Rfc.Uri.Words

/-! The host is stored in lower case. A literal that is accepted is also accepted
in lower case. -/
namespace ImpactSockets.Uri

open Abnf AbnfOps Ascii
open scoped Computability

/-! ### Characters -/

set_option maxRecDepth 4000 in
theorem hexdig_tolower : ∀ c : UInt8, hexdig (tolower c) = hexdig c := by
  decide

set_option maxRecDepth 4000 in
theorem ipvFutureChar_tolower : ∀ c : UInt8, ipvFutureChar (tolower c) = ipvFutureChar c := by
  decide

/-- The characters that lower-casing does not come to or leave. -/
def Caseless (d : UInt8) : Prop := upper d = false ∧ lower d = false

set_option maxRecDepth 4000 in
/-- A character is unchanged or a capital made small. -/
theorem tolower_cases : ∀ c : UInt8, tolower c = c ∨ upper c = true ∧ lower (tolower c) = true := by
  decide

/-- A character without case is recognised in either case of the text. -/
theorem tolower_beq {d : UInt8} (h : Caseless d) (c : UInt8) : (tolower c == d) = (c == d) := by
  rcases tolower_cases c with hSame | ⟨hUpper, hLower⟩
  · rw [hSame]
  · have hFirst : tolower c ≠ d := fun hEq => by simp [hEq, h.2] at hLower
    have hSecond : c ≠ d := fun hEq => by simp [hEq, h.1] at hUpper
    simp [hFirst, hSecond]

theorem between_tolower {first last : UInt8} (h : last ≤ 0x39) (c : UInt8) :
    between first last (tolower c) = between first last c := by
  rcases tolower_cases c with hSame | ⟨hUpper, hLower⟩
  · rw [hSame]
  · have hLetter {d : UInt8} (hd : 0x41 ≤ d) : between first last d = false := by
      refine Bool.eq_false_iff.mpr fun hBetween => ?_
      exact absurd (UInt8.le_trans hd (UInt8.le_trans (between_le hBetween) h)) (by decide)
    simp only [upper, lower, Bool.and_eq_true, decide_eq_true_eq] at hUpper hLower
    rw [hLetter hUpper.1, hLetter (UInt8.le_trans (by decide) hLower.1)]

theorem delimitOctet_tolower (c : UInt8) (st : DecState) : delimitOctet (tolower c) st = delimitOctet c st := by
  rw [delimitOctet, tolower_beq ⟨by decide, by decide⟩, tolower_beq ⟨by decide, by decide⟩]
  rfl

/-- A step over a hexadecimal group does not see the case. -/
theorem hexStep_tolower (c : UInt8) (atZero : Bool) (st : HexState) :
    hexStep (tolower c) atZero st = hexStep c atZero st := by
  rw [hexStep, hexdig_tolower, tolower_beq ⟨by decide, by decide⟩]
  rfl

/-- A step over an octet does not see the case. -/
theorem decStep_tolower (c : UInt8) (st : DecState) : decStep (tolower c) st = decStep c st := by
  unfold decStep
  rw [tolower_beq (d := 0x35) ⟨by decide, by decide⟩, tolower_beq (d := 0x32) ⟨by decide, by decide⟩,
    tolower_beq (d := 0x31) ⟨by decide, by decide⟩]
  simp (disch := decide) only [between_tolower, delimitOctet_tolower]

/-! ### Loops -/

theorem readAt_tolower (data : Bytes) (i : Nat) : readAt (data.map tolower) i = (readAt data i).map tolower := by
  unfold readAt
  rw [List.getElem?_map]
  cases data[i]? <;> rfl

/-- It is enough that what follows comes to the same for the character in lower case. -/
theorem readAt_bind_tolower {β : Type} {next next' : UInt8 → Exec β} (h : ∀ c, next (tolower c) = next' c)
    (data : Bytes) (i : Nat) : (readAt (data.map tolower) i >>= next) = (readAt data i >>= next') := by
  rw [readAt_tolower]
  cases readAt data i with
  | error fault => rfl
  | ok c => exact h c

/-- The loop over the groups does not see the case. -/
theorem hexLoop_tolower (data : Bytes) (i : Nat) (st : HexState) :
    hexLoop (data.map tolower) i st = hexLoop data i st := by
  induction i generalizing st with
  | zero => exact readAt_bind_tolower (fun c => by rw [hexStep_tolower]) data 0
  | succ i ih =>
      rw [hexLoop, hexLoop]
      simp only [ih]
      exact readAt_bind_tolower (fun c => by rw [hexStep_tolower]) data (i + 1)

/-- The loop over the octets does not see the case. -/
theorem decLoop_tolower (data : Bytes) (i : Nat) (st : DecState) :
    decLoop (data.map tolower) i st = decLoop data i st := by
  induction i generalizing st with
  | zero => rfl
  | succ i ih =>
      rw [decLoop, decLoop]
      simp only [ih]
      split_ifs
      · exact readAt_bind_tolower (fun c => by rw [decStep_tolower]) data (i + 1)
      · rfl

theorem skipHexdigs_tolower (s : Bytes) (i : Nat) : skipHexdigs (s.map tolower) i = skipHexdigs s i := by
  induction s generalizing i with
  | nil => rfl
  | cons c rest ih => rw [List.map_cons, skipHexdigs, skipHexdigs, hexdig_tolower, ih, List.length_map]

/-! ### Parsers -/

theorem colon_caseless : Caseless colon := by
  constructor <;> decide

theorem dot_caseless : Caseless dot := by
  constructor <;> decide

theorem parseHex_tolower (data : Bytes) (currentIdx : Nat) (havePlaceholder haveIpv4 : Bool) :
    parseHex (data.map tolower) currentIdx havePlaceholder haveIpv4 =
      parseHex data currentIdx havePlaceholder haveIpv4 := by
  rw [parseHex, parseHex, hexLoop_tolower]
  refine bind_congr fun found => ?_
  rcases found with _ | ⟨i, st⟩
  · rfl
  · dsimp only
    split_ifs
    · rfl
    all_goals exact readAt_bind_tolower (fun c => by rw [tolower_beq colon_caseless]) data i

theorem parseDec_tolower (data : Bytes) (currentIdx : Nat) :
    parseDec (data.map tolower) currentIdx = parseDec data currentIdx := by
  rw [parseDec, parseDec, decLoop_tolower]
  refine bind_congr fun found => ?_
  rcases found with _ | ⟨i, st⟩
  · rfl
  · dsimp only
    refine if_congr Iff.rfl rfl (readAt_bind_tolower (fun c => ?_) data i)
    rw [tolower_beq colon_caseless]
    refine if_congr Iff.rfl (readAt_bind_tolower (fun c => ?_) data (i - 1)) rfl
    rw [tolower_beq colon_caseless, parseHex_tolower, parseHex_tolower]

/-- An IPv6 address is judged without its case. -/
theorem parseIpv6Address_tolower (data : Bytes) : parseIpv6Address (data.map tolower) = parseIpv6Address data := by
  unfold parseIpv6Address
  simp only [List.length_map, parseHex_tolower, parseDec_tolower]
  refine if_congr Iff.rfl rfl
    (readAt_bind_tolower (fun last => readAt_bind_tolower (fun previous => ?_) data _) data _)
  rw [tolower_beq colon_caseless, tolower_beq colon_caseless, tolower_beq dot_caseless, hexdig_tolower]
  refine if_congr Iff.rfl rfl (if_congr Iff.rfl (if_congr Iff.rfl rfl ?_) rfl)
  refine readAt_bind_tolower (fun second => readAt_bind_tolower (fun third => ?_) data _) data _
  rw [tolower_beq dot_caseless, tolower_beq dot_caseless]

/-- An IPvFuture behind its small v is judged without its case. -/
theorem parseIpvFuture_tolower (rest : Bytes) :
    parseIpvFuture (0x76 :: rest.map tolower) = parseIpvFuture (0x76 :: rest) := by
  have hData : 0x76 :: rest.map tolower = (0x76 :: rest).map tolower := rfl
  have hHead : readAt ((0x76 :: rest).map tolower) 0 = readAt (0x76 :: rest) 0 := rfl
  have hDrop (n : Nat) : ((0x76 :: rest).map tolower).drop n = ((0x76 :: rest).drop n).map tolower := List.map_drop.symm
  unfold parseIpvFuture
  rw [hData, hHead, List.length_map]
  simp only [hDrop, skipHexdigs_tolower, List.all_map, Function.comp_def, ipvFutureChar_tolower]
  refine if_congr Iff.rfl rfl (bind_congr fun v => if_congr Iff.rfl rfl (readAt_bind_tolower (fun digit => ?_) _ _))
  rw [hexdig_tolower]
  refine if_congr Iff.rfl rfl (bind_congr fun i => readAt_bind_tolower (fun c => ?_) _ _)
  rw [bne, tolower_beq dot_caseless]
  refine if_congr Iff.rfl rfl (readAt_bind_tolower (fun first => ?_) _ _)
  rw [ipvFutureChar_tolower]

/-- The parser of an IP literal, with the brackets taken off. -/
theorem parseIpLiteral_bracketed (c : UInt8) {rest : Bytes} (h : rest ≠ []) :
    parseIpLiteral (openBracket :: (c :: rest) ++ [closeBracket]) =
      if c == 0x76 then parseIpvFuture (c :: rest) else parseIpv6Address (c :: rest) := by
  have hLength : ¬(openBracket :: (c :: rest) ++ [closeBracket]).length < 4 := by
    have hPos := List.length_pos_iff.mpr h
    simp only [List.length_append, List.length_cons, List.length_nil]
    omega
  have hLast : readAt (openBracket :: (c :: rest) ++ [closeBracket])
      ((openBracket :: (c :: rest) ++ [closeBracket]).length - 1) = .ok closeBracket := by
    simpa using readAt_place (openBracket :: (c :: rest)) [] closeBracket
  have hInner : cut (openBracket :: (c :: rest) ++ [closeBracket]) 1
      ((openBracket :: (c :: rest) ++ [closeBracket]).length - 1) = .ok (c :: rest) := by
    have hPlace := cut_place [openBracket] (c :: rest) [closeBracket]
    simpa [Nat.add_comm, Nat.add_left_comm] using hPlace
  rw [parseIpLiteral, if_neg hLength, hLast, hInner]
  rfl

/-- What is accepted between the brackets is also accepted in lower case. -/
theorem parseIpLiteral_tolower {inner : Bytes} {errno : Imperr}
    (h : parseIpLiteral (openBracket :: inner ++ [closeBracket]) = .ok (true, errno)) :
    parseIpLiteral (openBracket :: inner.map tolower ++ [closeBracket]) = .ok (true, errno) := by
  obtain ⟨hLength, _⟩ := unless_refused.mp h
  rcases inner with _ | ⟨c, rest⟩
  · exact absurd (by decide) hLength
  have hRest : rest ≠ [] := by
    rintro rfl
    exact hLength (by simp)
  have hMap : rest.map tolower ≠ [] := by simpa using hRest
  rw [parseIpLiteral_bracketed c hRest] at h
  rw [List.map_cons, parseIpLiteral_bracketed (tolower c) hMap]
  by_cases hFuture : (c == 0x76) = true
  · obtain rfl : c = 0x76 := by simpa using hFuture
    rw [if_pos hFuture] at h
    exact (parseIpvFuture_tolower rest).trans h
  · rw [if_neg hFuture] at h
    have hHead := acceptedAddress_head (parseIpv6Address_split h) c rfl
    have hLower : ¬(tolower c == 0x76) = true := by
      intro hVersion
      have hDigit : hexdig (tolower c) = false := by
        rw [beq_iff_eq.mp hVersion]
        rfl
      rw [hexdig_tolower] at hDigit
      rcases hHead with hHex | rfl
      · rw [hDigit] at hHex
        cases hHex
      · exact absurd hVersion (by decide)
    rw [if_neg hLower, ← h]
    exact parseIpv6Address_tolower (c :: rest)

end ImpactSockets.Uri
