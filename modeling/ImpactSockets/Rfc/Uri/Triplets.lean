import ImpactSockets.Rfc.Uri.Grammar

/-! What percent-decoding makes of a text of characters and triplets, and that
it succeeds on exactly these texts. -/
namespace ImpactSockets.Uri

open Abnf AbnfOps Ascii
open scoped Computability

/-- The text that formatted input yields. -/
def visible (str : Bytes) : Bytes := str.filter fun c => !isspace c

/-- Formatted input skips nothing where there is no white space. -/
theorem visible_of_no_space {str : Bytes} (h : ∀ c ∈ str, isspace c = false) : visible str = str :=
  List.filter_eq_self.mpr fun c hc => by simp [h c hc]

set_option maxRecDepth 4000 in
theorem hexdig_not_space : ∀ c : UInt8, hexdig c = true → isspace c = false := by
  decide

/-- Decoding succeeds exactly where its loop does. -/
theorem percentDecode_ok (str : Bytes) (lowerCase : Bool) (errno : Imperr) :
    (percentDecode str lowerCase errno).ok = (decodeLoop lowerCase (visible str) .plain).isSome := by
  unfold percentDecode
  split_ifs with h
  · rw [List.length_eq_zero_iff.mp h]
    rfl
  · change _ = (decodeLoop lowerCase (str.filter _) .plain).isSome
    cases decodeLoop lowerCase (str.filter fun c => !isspace c) .plain <;> rfl

/-- The decoded text is what the loop gives. -/
theorem percentDecode_str {str decoded : Bytes} {lowerCase : Bool}
    (h : decodeLoop lowerCase (visible str) .plain = some decoded) (errno : Imperr) :
    (percentDecode str lowerCase errno).str = decoded := by
  unfold percentDecode
  split_ifs with hLength
  · rw [List.length_eq_zero_iff.mp hLength] at h ⊢
    exact Option.some.inj h
  · change decodeLoop lowerCase (str.filter _) .plain = some decoded at h
    rw [h]

/-! ### One unit of text -/

/-- A plain character is copied, in small letters if asked for. -/
theorem decodeLoop_plain {c : UInt8} (h : c ≠ percent) (lowerCase : Bool) (rest : Bytes) :
    decodeLoop lowerCase (c :: rest) .plain =
      (decodeLoop lowerCase rest .plain).map ((if lowerCase then tolower c else c) :: ·) := by
  rw [decodeLoop, if_neg (by simpa using h)]

/-- A triplet is decoded, or copied in capitals. -/
theorem decodeLoop_triplet {high low : UInt8} (hHigh : hexdig high = true) (hLow : hexdig low = true)
    (lowerCase : Bool) (rest : Bytes) :
    decodeLoop lowerCase (percent :: high :: low :: rest) .plain =
      (decodeLoop lowerCase rest .plain).map (decodeTriplet (toupper high) (toupper low) ++ ·) := by
  simp [decodeLoop, hHigh, hLow]

/-- A "%" is only read as the start of a triplet. -/
theorem triplet_of_decodeLoop {lowerCase : Bool} {rest decoded : Bytes}
    (h : decodeLoop lowerCase (percent :: rest) .plain = some decoded) :
    ∃ high low tail, rest = high :: low :: tail ∧ hexdig high = true ∧ hexdig low = true := by
  rcases rest with _ | ⟨high, _ | ⟨low, tail⟩⟩
  · simp [decodeLoop] at h
  · simp [decodeLoop] at h
  · rw [decodeLoop, if_pos (by simp), decodeLoop] at h
    split_ifs at h with hHigh
    rw [decodeLoop] at h
    split_ifs at h with hLow
    exact ⟨high, low, tail, rfl, hHigh, hLow⟩

/-- A triplet is a percent sign with two hexadecimal digits. -/
theorem mem_pctEncoded {w : Bytes} :
    w ∈ Grammar.pctEncoded ↔
      ∃ high low, hexdig high = true ∧ hexdig low = true ∧ w = [percent, high, low] := by
  rw [Grammar.pctEncoded, mem_literal_mul]
  constructor
  · rintro ⟨rest, hRest, rfl⟩
    obtain ⟨_, ⟨high, hHigh, rfl⟩, _, ⟨low, hLow, rfl⟩, rfl⟩ := Language.mem_mul.mp hRest
    exact ⟨high, low, hHigh, hLow, rfl⟩
  · rintro ⟨high, low, hHigh, hLow, rfl⟩
    exact ⟨_, Language.append_mem_mul (mem_oneOf.mpr ⟨high, hHigh, rfl⟩) (mem_oneOf.mpr ⟨low, hLow, rfl⟩), rfl⟩

/-- An induction over the units of a text. -/
theorem encodedText_induction {plain : UInt8 → Bool} {property : Bytes → Prop} (hNil : property [])
    (hPlain : ∀ c rest, plain c = true → property rest → property (c :: rest))
    (hTriplet : ∀ high low rest, hexdig high = true → hexdig low = true → property rest →
      property (percent :: high :: low :: rest)) {w : Bytes} (h : w ∈ Grammar.encodedText plain) :
    property w := by
  refine kstar_induction hNil ?_ h
  intro first hFirst rest hRest
  rcases (Language.mem_add _ _ _).mp hFirst with ⟨c, hc, rfl⟩ | hFirst
  · exact hPlain c rest hc hRest
  · obtain ⟨high, low, hHigh, hLow, rfl⟩ := mem_pctEncoded.mp hFirst
    exact hTriplet high low rest hHigh hLow hRest

theorem cons_mem_encodedText {plain : UInt8 → Bool} {c : UInt8} {rest : Bytes} (h : plain c = true)
    (hRest : rest ∈ Grammar.encodedText plain) : c :: rest ∈ Grammar.encodedText plain :=
  cons_mem_kstar ((Language.mem_add _ _ _).mpr (.inl ⟨c, h, rfl⟩)) hRest

theorem triplet_mem_encodedText {plain : UInt8 → Bool} {high low : UInt8} {rest : Bytes}
    (hHigh : hexdig high = true) (hLow : hexdig low = true)
    (hRest : rest ∈ Grammar.encodedText plain) :
    percent :: high :: low :: rest ∈ Grammar.encodedText plain := by
  have hUnit : [percent, high, low] ∈ oneOf plain + Grammar.pctEncoded :=
    (Language.mem_add _ _ _).mpr (.inr (mem_pctEncoded.mpr ⟨high, low, hHigh, hLow, rfl⟩))
  exact append_mem_kstar (mem_kstar_of_mem hUnit) hRest

/-- The texts of a class are those that hold nothing but the class and "%" and
that can be decoded. -/
theorem mem_encodedText_iff {plain : UInt8 → Bool} (hPercent : plain percent = false)
    (hHex : ∀ c, hexdig c = true → plain c = true) (lowerCase : Bool) (w : Bytes) :
    w ∈ Grammar.encodedText plain ↔
      (∀ c ∈ w, plain c = true ∨ c = percent) ∧ (decodeLoop lowerCase w .plain).isSome = true := by
  constructor
  · refine @encodedText_induction plain (fun w => (∀ c ∈ w, plain c = true ∨ c = percent) ∧
      (decodeLoop lowerCase w .plain).isSome = true) ⟨by simp, rfl⟩ ?_ ?_ w
    · rintro c rest hc ⟨hRest, hDecode⟩
      have hNe : c ≠ percent := by
        rintro rfl
        rw [hPercent] at hc
        cases hc
      rw [decodeLoop_plain hNe, Option.isSome_map]
      exact ⟨List.forall_mem_cons.mpr ⟨.inl hc, hRest⟩, hDecode⟩
    · rintro high low rest hHigh hLow ⟨hRest, hDecode⟩
      rw [decodeLoop_triplet hHigh hLow, Option.isSome_map]
      simp only [List.forall_mem_cons]
      exact ⟨⟨.inr trivial, .inl (hHex high hHigh), .inl (hHex low hLow), hRest⟩, hDecode⟩
  · rintro ⟨hChars, hDecode⟩
    induction hLength : w.length using Nat.strong_induction_on generalizing w with
    | _ length ih =>
        subst hLength
        cases w with
        | nil => exact Language.nil_mem_kstar _
        | cons c rest =>
            rw [List.forall_mem_cons] at hChars
            by_cases hc : c = percent
            · subst hc
              obtain ⟨decoded, hDecoded⟩ := Option.isSome_iff_exists.mp hDecode
              obtain ⟨high, low, tail, rfl, hHigh, hLow⟩ := triplet_of_decodeLoop hDecoded
              rw [decodeLoop_triplet hHigh hLow, Option.isSome_map] at hDecode
              simp only [List.forall_mem_cons] at hChars
              refine triplet_mem_encodedText hHigh hLow (ih tail.length ?_ tail hChars.2.2.2 hDecode rfl)
              simp only [List.length_cons]
              omega
            · rw [decodeLoop_plain hc, Option.isSome_map] at hDecode
              exact cons_mem_encodedText (hChars.1.resolve_right hc)
                (ih rest.length (by simp) rest hChars.2 hDecode rfl)

/-! ### The percent-normal form -/

def hexValue (c : UInt8) : Nat :=
  if digit c then c.toNat - 0x30 else if upper c then c.toNat - 0x41 + 10 else c.toNat - 0x61 + 10

/-- The byte that a triplet encodes. -/
def encodedByte (high low : UInt8) : UInt8 := UInt8.ofNat (16 * hexValue high + hexValue low)

/-- A triplet in normal form: the byte it encodes, or the triplet in upper case
when that byte is reserved or a "%". -/
def normalTriplet (fold : UInt8 → UInt8) (high low : UInt8) : Bytes :=
  if reserved (encodedByte high low) || encodedByte high low == percent then
    [percent, toupper high, toupper low]
  else [fold (encodedByte high low)]

/-- A text in normal form, where `fold` is applied to every character that is
not part of a triplet in the end. -/
def percentNormal (fold : UInt8 → UInt8) : Bytes → Bytes
  | c :: high :: low :: rest =>
      if c == percent then normalTriplet fold high low ++ percentNormal fold rest
      else fold c :: percentNormal fold (high :: low :: rest)
  | rest => rest.map fold

/-- The normal form, character by character. -/
theorem percentNormal_plain {c : UInt8} (h : c ≠ percent) (fold : UInt8 → UInt8) (rest : Bytes) :
    percentNormal fold (c :: rest) = fold c :: percentNormal fold rest := by
  rcases rest with _ | ⟨high, _ | ⟨low, rest⟩⟩
  · rfl
  · rfl
  · rw [percentNormal, if_neg (by simpa using h)]

/-- The normal form, triplet by triplet. -/
theorem percentNormal_triplet (fold : UInt8 → UInt8) (high low : UInt8) (rest : Bytes) :
    percentNormal fold (percent :: high :: low :: rest) =
      normalTriplet fold high low ++ percentNormal fold rest := by
  rw [percentNormal, if_pos (by simp)]

set_option maxRecDepth 4000 in
private theorem nibbleValue_toupper :
    ∀ c : UInt8, hexdig c = true → hexValue c < 16 ∧ nibbleValue (toupper c) = UInt8.ofNat (hexValue c) := by
  decide

/-- The two nibbles put together by shift and or. -/
private theorem nibbles_joined :
    ∀ high low : Fin 16, (UInt8.ofNat high <<< 4) ||| UInt8.ofNat low = UInt8.ofNat (16 * high + low) := by
  decide

/-- The nibbles of the source compute the encoded byte. -/
theorem nibbleByte_toupper {high low : UInt8} (hHigh : hexdig high = true) (hLow : hexdig low = true) :
    nibbleByte (toupper high) (toupper low) = encodedByte high low := by
  obtain ⟨hHighLt, hHighEq⟩ := nibbleValue_toupper high hHigh
  obtain ⟨hLowLt, hLowEq⟩ := nibbleValue_toupper low hLow
  rw [nibbleByte, hHighEq, hLowEq]
  exact nibbles_joined ⟨hexValue high, hHighLt⟩ ⟨hexValue low, hLowLt⟩

/-- What the code makes of a triplet is its normal form. -/
theorem decodeTriplet_eq {high low : UInt8} (hHigh : hexdig high = true) (hLow : hexdig low = true) :
    decodeTriplet (toupper high) (toupper low) = normalTriplet id high low := by
  rw [decodeTriplet, normalTriplet, nibbleByte_toupper hHigh hLow]
  rfl

/-- Decoding a text without lower-casing gives its normal form. -/
theorem decodeLoop_eq_percentNormal {plain : UInt8 → Bool} (hPercent : plain percent = false)
    {w : Bytes} (h : w ∈ Grammar.encodedText plain) :
    decodeLoop false w .plain = some (percentNormal id w) := by
  refine @encodedText_induction plain (fun w => decodeLoop false w .plain = some (percentNormal id w))
    rfl ?_ ?_ w h
  · intro c rest hc ih
    have hNe : c ≠ percent := by
      rintro rfl
      rw [hPercent] at hc
      cases hc
    rw [decodeLoop_plain hNe, percentNormal_plain hNe, ih]
    rfl
  · intro high low rest hHigh hLow ih
    rw [decodeLoop_triplet hHigh hLow, percentNormal_triplet, ih, decodeTriplet_eq hHigh hLow]
    rfl

/-- Decoding with lower-casing does not touch what triplets encode. -/
def lowered : Bytes → Bytes
  | c :: high :: low :: rest =>
      if c == percent then normalTriplet id high low ++ lowered rest
      else tolower c :: lowered (high :: low :: rest)
  | rest => rest.map tolower

theorem lowered_plain {c : UInt8} (h : c ≠ percent) (rest : Bytes) :
    lowered (c :: rest) = tolower c :: lowered rest := by
  rcases rest with _ | ⟨high, _ | ⟨low, rest⟩⟩
  · rfl
  · rfl
  · rw [lowered, if_neg (by simpa using h)]

theorem lowered_triplet (high low : UInt8) (rest : Bytes) :
    lowered (percent :: high :: low :: rest) = normalTriplet id high low ++ lowered rest := by
  rw [lowered, if_pos (by simp)]

/-- The loop with small letters gives the lowered text, by induction on the word. -/
theorem decodeLoop_eq_lowered {plain : UInt8 → Bool} (hPercent : plain percent = false) {w : Bytes}
    (h : w ∈ Grammar.encodedText plain) : decodeLoop true w .plain = some (lowered w) := by
  refine @encodedText_induction plain (fun w => decodeLoop true w .plain = some (lowered w))
    rfl ?_ ?_ w h
  · intro c rest hc ih
    have hNe : c ≠ percent := by
      rintro rfl
      rw [hPercent] at hc
      cases hc
    rw [decodeLoop_plain hNe, lowered_plain hNe, ih]
    rfl
  · intro high low rest hHigh hLow ih
    rw [decodeLoop_triplet hHigh hLow, lowered_triplet, ih, decodeTriplet_eq hHigh hLow]
    rfl

/-- No triplet of the text encodes an upper-case letter. -/
def NoUpperTriplet (w : Bytes) : Prop :=
  ∀ before high low after, w = before ++ percent :: high :: low :: after →
    upper (encodedByte high low) = false

theorem noUpperTriplet_plain {c : UInt8} (h : c ≠ percent) (rest : Bytes) :
    NoUpperTriplet (c :: rest) ↔ NoUpperTriplet rest := by
  constructor
  · rintro hAll before high low after rfl
    exact hAll (c :: before) high low after rfl
  · rintro hRest before high low after hEq
    rcases before with _ | ⟨d, before⟩
    · exact (h (List.cons.inj hEq).1).elim
    · exact hRest before high low after (List.cons.inj hEq).2

/-- The condition on a text that begins with a triplet. -/
theorem noUpperTriplet_triplet {high low : UInt8} (hHigh : hexdig high = true)
    (hLow : hexdig low = true) (rest : Bytes) :
    NoUpperTriplet (percent :: high :: low :: rest) ↔
      upper (encodedByte high low) = false ∧ NoUpperTriplet rest := by
  have hNe (c : UInt8) (hc : hexdig c = true) : c ≠ percent := by
    rintro rfl
    cases hc
  have hDigits : NoUpperTriplet rest ↔ NoUpperTriplet (high :: low :: rest) := by
    rw [noUpperTriplet_plain (hNe high hHigh), noUpperTriplet_plain (hNe low hLow)]
  rw [hDigits]
  constructor
  · intro h
    refine ⟨h [] high low rest rfl, ?_⟩
    rintro before other last after hEq
    exact h (percent :: before) other last after (by rw [hEq]; rfl)
  · rintro ⟨hFirst, hRest⟩ before other last after hEq
    rcases before with _ | ⟨d, before⟩
    · simp only [List.nil_append, List.cons.injEq, true_and] at hEq
      rw [← hEq.1, ← hEq.2.1]
      exact hFirst
    · exact hRest before other last after (List.cons.inj hEq).2

set_option maxRecDepth 4000 in
/-- Only capitals are changed by `tolower`. -/
theorem tolower_eq_self : ∀ c : UInt8, tolower c = c ↔ upper c = false := by
  decide

set_option maxRecDepth 4000 in
/-- A capital letter is no reserved character, so its triplet is decoded. -/
theorem upper_not_reserved : ∀ c : UInt8, upper c = true → reserved c = false ∧ (c == percent) = false := by
  decide

/-- The two normal forms of a triplet differ only for a capital. -/
theorem normalTriplet_fold_iff (high low : UInt8) :
    normalTriplet id high low = normalTriplet tolower high low ↔ upper (encodedByte high low) = false := by
  unfold normalTriplet
  by_cases hUpper : upper (encodedByte high low) = true
  · obtain ⟨hReserved, hPercent⟩ := upper_not_reserved _ hUpper
    have hFold : tolower (encodedByte high low) ≠ encodedByte high low := by
      rw [ne_eq, tolower_eq_self, hUpper]
      simp
    simp [hReserved, hPercent, hUpper, hFold.symm]
  · have hFold := (tolower_eq_self (encodedByte high low)).mpr (by simpa using hUpper)
    simp [hFold, hUpper]

/-- Folding does not change the length of a normal form. -/
theorem length_normalTriplet (first second : UInt8 → UInt8) (high low : UInt8) :
    (normalTriplet first high low).length = (normalTriplet second high low).length := by
  unfold normalTriplet
  split_ifs <;> rfl

/-- The exact texts that are lower-cased throughout. -/
theorem lowered_eq_iff {plain : UInt8 → Bool} (hPercent : plain percent = false) {w : Bytes}
    (h : w ∈ Grammar.encodedText plain) :
    lowered w = percentNormal tolower w ↔ NoUpperTriplet w := by
  refine @encodedText_induction plain
    (fun w => lowered w = percentNormal tolower w ↔ NoUpperTriplet w) ?_ ?_ ?_ w h
  · refine iff_of_true rfl fun before high low after hEq => ?_
    simp at hEq
  · intro c rest hc ih
    have hNe : c ≠ percent := by
      rintro rfl
      rw [hPercent] at hc
      cases hc
    rw [lowered_plain hNe, percentNormal_plain hNe, noUpperTriplet_plain hNe, ← ih]
    simp
  · intro high low rest hHigh hLow ih
    rw [lowered_triplet, percentNormal_triplet, noUpperTriplet_triplet hHigh hLow, ← ih,
      ← normalTriplet_fold_iff]
    constructor
    · exact fun hEq => List.append_inj hEq (length_normalTriplet ..)
    · rintro ⟨hTriplet, hRest⟩
      rw [hTriplet, hRest]

end ImpactSockets.Uri
