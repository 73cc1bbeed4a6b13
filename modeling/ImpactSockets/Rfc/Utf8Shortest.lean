import ImpactSockets.Rfc.Utf8Chunks
import ImpactSockets.Rfc.Utf8Serialize

/-! Texts that the UTF-8 decoder accepts, and what their symbols are encoded to. -/
namespace ImpactSockets.Utf8

open Abnf

/-! ### What is read -/

/-- The symbols that an accepted text is read as. -/
inductive ReadAs : Bytes → List UInt32 → Prop where
  | nil : ReadAs [] []
  | cut {head : UInt8} {trailers : Bytes} {count : Nat} (hHead : headerState head = some count)
      (hCut : trailers.length < count) (hTrailers : ∀ c ∈ trailers, isTrailer c = true) :
      ReadAs (head :: trailers) []
  | ascii {c : UInt8} {rest : Bytes} {symbols : List UInt32} (hc : c < 0x80) (hRest : ReadAs rest symbols) :
      ReadAs (c :: rest) (c.toUInt32 :: symbols)
  | header {head : UInt8} {trailers rest : Bytes} {symbols : List UInt32}
      (hHead : headerState head = some trailers.length) (hTrailers : ∀ c ∈ trailers, isTrailer c = true)
      (hRest : ReadAs rest symbols) : ReadAs (head :: trailers ++ rest) (decoded head trailers :: symbols)

/-- Fewer octets than the trailers that are due are all trailers. -/
theorem trailers_of_inPlace {count : Nat} {s : Bytes} (h : InPlace count s) (hLength : s.length < count) :
    ∀ c ∈ s, isTrailer c = true := by
  induction h with
  | nil => simp
  | ascii => simp at hLength
  | header => simp at hLength
  | trailer hc hRest ih =>
      refine List.forall_mem_cons.mpr ⟨hc, ih ?_⟩
      simpa using hLength

/-- Octets in place are read as some symbols, by induction on their number. -/
theorem readAs_of_inPlace {s : Bytes} (h : InPlace 0 s) : ∃ symbols, ReadAs s symbols := by
  induction hLength : s.length using Nat.strong_induction_on generalizing s with
  | _ length ih =>
      subst hLength
      cases h with
      | nil => exact ⟨[], .nil⟩
      | @ascii c rest hc hRest =>
          obtain ⟨symbols, hRead⟩ := ih rest.length (by simp) hRest rfl
          exact ⟨_, .ascii hc hRead⟩
      | @header head rest count hHead hRest =>
          by_cases hCut : rest.length < count
          · exact ⟨[], .cut hHead hCut (trailers_of_inPlace hRest hCut)⟩
          · obtain ⟨trailers, rest, rfl, rfl, hTrailers, hPlace⟩ := inPlace_split hRest (Nat.le_of_not_lt hCut)
            have hShorter : rest.length < (head :: (trailers ++ rest)).length := by
              simp only [List.length_cons, List.length_append]
              omega
            obtain ⟨symbols, hRead⟩ := ih rest.length hShorter hPlace rfl
            exact ⟨_, .header hHead hTrailers hRead⟩

/-- The trailers of a symbol that is cut short push nothing. -/
theorem deserializeLoop_cut {trailers : Bytes} (h : ∀ c ∈ trailers, isTrailer c = true) {count : Nat}
    (hCut : trailers.length < count) (symbol : UInt32) (result : Option (List UInt32)) :
    deserializeLoop trailers ⟨count, symbol, result⟩ = ⟨true, .success, result⟩ := by
  induction trailers generalizing count symbol with
  | nil => rfl
  | cons c trailers ih =>
      rw [List.forall_mem_cons] at h
      obtain ⟨owed, rfl⟩ : ∃ owed, count = owed + 2 := ⟨count - 2, by rw [List.length_cons] at hCut; omega⟩
      rw [deserializeLoop, deserializeStep_trailer h.1, if_neg (Nat.succ_ne_zero owed)]
      exact ih h.2 (by simpa using hCut) (appendSix symbol c)

/-- The loop reads them as these symbols. -/
theorem ReadAs.loop_eq {s : Bytes} {symbols : List UInt32} (h : ReadAs s symbols) (before : UInt32)
    (result : Option (List UInt32)) :
    deserializeLoop s ⟨0, before, result⟩ = ⟨true, .success, result.map (· ++ symbols)⟩ := by
  induction h generalizing before result with
  | nil => simp [deserializeLoop]
  | @cut head trailers count hHead hCut hTrailers =>
      rw [deserializeLoop, deserializeStep_header hHead]
      simpa using deserializeLoop_cut hTrailers hCut (headerBits count head) result
  | @ascii c rest symbols hc hRest ih =>
      rw [show c :: rest = [c] ++ rest from rfl, readsSymbol_ascii hc, ih, Option.map_map]
      simp [Function.comp_def]
  | header hHead hTrailers hRest ih =>
      rw [readsSymbol_header hHead hTrailers, ih, Option.map_map]
      simp [Function.comp_def]

theorem ReadAs.deserialize_eq {s : Bytes} {symbols : List UInt32} (h : ReadAs s symbols)
    (result : Option (List UInt32)) :
    deserialize s result = ⟨true, .success, result.map (· ++ symbols)⟩ :=
  h.loop_eq 0 result

/-- What the decoder returned is what the text was read as. -/
theorem readAs_of_deserialize {s : Bytes} {w : List UInt32}
    (h : deserialize s (some []) = ⟨true, .success, some w⟩) : ReadAs s w := by
  have hOk : (deserialize s (some [])).ok = true := by
    rw [h]
  obtain ⟨symbols, hRead⟩ := readAs_of_inPlace ((deserializeLoop_ok_iff s ⟨0, 0, some []⟩).mp hOk)
  rw [hRead.deserialize_eq] at h
  obtain rfl : symbols = w := by
    simpa using h
  exact hRead

/-! ### Encodings are UTF-8 -/

/-- The encoding of a scalar value is a symbol of the grammar. -/
theorem encode_mem {symbol : UInt32} (h : Scalar symbol) : encode symbol ∈ Grammar.utf8Char := by
  rw [scalar_iff] at h
  have hTrailer := isTrailer_trailer
  have hSix := toNat_trailer (symbol >>> 6)
  have hTwelve := toNat_trailer (symbol >>> 12)
  obtain ⟨hShiftSix, hShiftTwelve, _⟩ := toNat_shifted symbol
  by_cases hOne : symbol.toNat ≤ 0x7F
  · rw [encode_one hOne]
    refine mem_utf8Char.mpr (.inl ⟨_, ?_, rfl⟩)
    rw [UInt8.lt_iff_toNat_lt, UInt32.toNat_toUInt8]
    exact Nat.lt_of_le_of_lt (Nat.mod_le _ _) (Nat.lt_succ_of_le hOne)
  by_cases hTwo : symbol.toNat ≤ 0x7FF
  · have hHeader := toNat_header_two hTwo
    rw [encode_two (by omega) hTwo]
    exact mem_utf8Char.mpr (.inr ⟨_, _, [], rfl, symbol_two.mpr ⟨by omega, hTrailer _⟩⟩)
  by_cases hThree : symbol.toNat ≤ 0xFFFF
  · have hHeader := toNat_header_three hThree
    rw [encode_three (by omega) hThree]
    exact mem_utf8Char.mpr (.inr ⟨_, _, _, rfl, symbol_three.mpr
      ⟨by omega, ⟨fun _ => by omega, fun _ => by omega⟩, hTrailer _, hTrailer _⟩⟩)
  · have hHeader := toNat_header_four h.1
    rw [encode_four (by omega)]
    exact mem_utf8Char.mpr (.inr ⟨_, _, _, rfl, symbol_four.mpr
      ⟨by omega, ⟨fun _ => by omega, fun _ => by omega⟩, hTrailer _, hTrailer _, hTrailer _⟩⟩)

/-- The encodings of scalar values are a text of the grammar. -/
theorem encoded_mem {w : List UInt32} (h : ∀ symbol ∈ w, Scalar symbol) : w.flatMap encode ∈ Grammar.utf8Octets := by
  induction w with
  | nil => exact Language.nil_mem_kstar _
  | cons symbol w ih =>
      rw [List.forall_mem_cons] at h
      exact append_mem_kstar (mem_kstar_of_mem (encode_mem h.1)) (ih h.2)

/-! ### Shortest forms -/

/-- A header and its trailers are what the encoder writes for their symbol, or longer. -/
theorem encode_decoded_or_shorter {head : UInt8} {trailers : Bytes} (hHead : headerState head = some trailers.length)
    (hTrailers : ∀ c ∈ trailers, isTrailer c = true) (hScalar : Scalar (decoded head trailers)) :
    encode (decoded head trailers) = head :: trailers ∨
      (encode (decoded head trailers)).length < (head :: trailers).length := by
  have hRange := header_cases hHead
  rw [scalar_iff] at hScalar
  rcases trailers with _ | ⟨first, _ | ⟨t, _ | ⟨u, _ | ⟨v, further⟩⟩⟩⟩
  · simp at hRange
  · have hValue := toNat_decoded_two head first
    obtain ⟨symbol, hSymbol⟩ : ∃ symbol, symbol = decoded head [first] := ⟨_, rfl⟩
    rw [← hSymbol] at hValue hScalar ⊢
    simp only [List.forall_mem_cons] at hTrailers
    simp only [List.length_cons, List.length_nil] at hRange
    by_cases hOne : symbol.toNat ≤ 0x7F
    · exact .inr (by simp [encode_one hOne])
    · have hHeader : header 0xC0 (symbol >>> 6) = head := by
        rw [← UInt8.toNat_inj, toNat_header_two (by omega)]
        omega
      rw [encode_two (by omega) (by omega), hHeader, trailer_eq hTrailers.1 (by omega)]
      exact .inl rfl
  · have hValue := toNat_decoded_three head first t
    obtain ⟨symbol, hSymbol⟩ : ∃ symbol, symbol = decoded head [first, t] := ⟨_, rfl⟩
    rw [← hSymbol] at hValue hScalar ⊢
    have hSix := (toNat_shifted symbol).1
    simp only [List.forall_mem_cons] at hTrailers
    simp only [List.length_cons, List.length_nil] at hRange
    by_cases hTwo : symbol.toNat ≤ 0x7FF
    · exact .inr (Nat.lt_succ_of_le ((length_encode_le symbol).2.2 hTwo))
    · have hHeader : header 0xE0 (symbol >>> 12) = head := by
        rw [← UInt8.toNat_inj, toNat_header_three (by omega)]
        omega
      rw [encode_three (by omega) (by omega), hHeader, trailer_eq hTrailers.1 (by omega),
        trailer_eq hTrailers.2.1 (by omega)]
      exact .inl rfl
  · have hValue := toNat_decoded_four head first t u
    obtain ⟨symbol, hSymbol⟩ : ∃ symbol, symbol = decoded head [first, t, u] := ⟨_, rfl⟩
    rw [← hSymbol] at hValue hScalar ⊢
    obtain ⟨hSix, hTwelve, _⟩ := toNat_shifted symbol
    simp only [List.forall_mem_cons] at hTrailers
    simp only [List.length_cons, List.length_nil] at hRange
    by_cases hThree : symbol.toNat ≤ 0xFFFF
    · exact .inr (Nat.lt_succ_of_le ((length_encode_le symbol).2.1 hThree))
    · have hHeader : header 0xF0 (symbol >>> 18) = head := by
        rw [← UInt8.toNat_inj, toNat_header_four (by omega)]
        omega
      rw [encode_four (by omega), hHeader, trailer_eq hTrailers.1 (by omega), trailer_eq hTrailers.2.1 (by omega),
        trailer_eq hTrailers.2.2.1 (by omega)]
      exact .inl rfl
  · simp only [List.length_cons] at hRange
    omega

/-- Encoding again gives the same octets or fewer, symbol by symbol. -/
theorem ReadAs.encoded_or_shorter {s : Bytes} {w : List UInt32} (h : ReadAs s w)
    (hScalar : ∀ symbol ∈ w, Scalar symbol) :
    w.flatMap encode = s ∨ (w.flatMap encode).length < s.length := by
  induction h with
  | nil => exact .inl rfl
  | cut => exact .inr (by simp)
  | @ascii c rest symbols hc hRest ih =>
      rw [List.forall_mem_cons] at hScalar
      have hValue : c.toUInt32.toNat ≤ 0x7F := by
        rw [UInt8.toNat_toUInt32]
        exact Nat.le_of_lt_succ (UInt8.lt_iff_toNat_lt.mp hc)
      have hByte : c.toUInt32.toUInt8 = c := by
        rw [← UInt8.toNat_inj, UInt32.toNat_toUInt8, UInt8.toNat_toUInt32]
        exact Nat.mod_eq_of_lt c.toNat_lt
      rw [List.flatMap_cons, encode_one hValue, hByte]
      rcases ih hScalar.2 with hSame | hShorter
      · exact .inl (by rw [hSame]; rfl)
      · exact .inr (by simpa using hShorter)
  | @header head trailers rest symbols hHead hTrailers hRest ih =>
      rw [List.forall_mem_cons] at hScalar
      rw [List.flatMap_cons]
      have hFirst := encode_decoded_or_shorter hHead hTrailers hScalar.1
      have hSecond := ih hScalar.2
      simp only [List.length_append]
      rcases hFirst with hFirst | hFirst
      · rcases hSecond with hSecond | hSecond
        · exact .inl (by rw [hFirst, hSecond])
        · exact .inr (by rw [hFirst]; omega)
      · rcases hSecond with hSecond | hSecond
        · exact .inr (by rw [hSecond]; omega)
        · exact .inr (by omega)

/-! ### Encoding again -/

/-- What encoding the symbols of an accepted text leaves behind. -/
structure Recoded (s : Bytes) (w : List UInt32) (t : Bytes) : Prop where
  encoded : serialize w (some []) = ⟨true, .success, some t⟩
  decoded : deserialize t (some []) = ⟨true, .success, some w⟩
  shortest : t = s ∨ t.length < s.length
  same_iff : t = s ↔ s ∈ Grammar.utf8Octets

/-- What has been read, encoded again. -/
theorem recoded_of_readAs {s : Bytes} {w : List UInt32} (h : ReadAs s w) (hScalar : ∀ symbol ∈ w, Scalar symbol) :
    Recoded s w (w.flatMap encode) where
  encoded := serialize_of_scalars hScalar (some [])
  decoded := deserializeLoop_encoded hScalar 0 (some [])
  shortest := h.encoded_or_shorter hScalar
  same_iff := by
    refine ⟨fun hSame => hSame ▸ encoded_mem hScalar, fun hMem => ?_⟩
    obtain ⟨symbols, hSymbols, rfl⟩ := encoded_of_mem hMem
    have hRead := h.deserialize_eq (some [])
    rw [deserialize, deserializeLoop_encoded hSymbols] at hRead
    obtain rfl : symbols = w := by
      simpa using hRead
    rfl

/-- An accepted text is encoded again to the shortest text of its symbols, which is
the text itself exactly if it was UTF-8. Encoding fails if a symbol is no scalar value. -/
theorem serialize_deserialized {s : Bytes} {w : List UInt32}
    (h : deserialize s (some []) = ⟨true, .success, some w⟩) :
    ((∃ symbol ∈ w, ¬Scalar symbol) →
        serialize w (some []) = ⟨false, .utf8Badsym, some []⟩ ∧ s ∉ Grammar.utf8Octets) ∧
      ((∀ symbol ∈ w, Scalar symbol) → ∃ t, Recoded s w t) := by
  have hRead := readAs_of_deserialize h
  refine ⟨fun hBad => ⟨?_, fun hMem => ?_⟩, fun hScalar => ⟨_, recoded_of_readAs hRead hScalar⟩⟩
  · simp only [serialize, serializeString]
    rw [totalSize_eq_none (by simpa only [unmasked] using hBad)]
  · obtain ⟨symbols, hSymbols, rfl⟩ := encoded_of_mem hMem
    rw [deserialize, deserializeLoop_encoded hSymbols] at h
    obtain rfl : symbols = w := by
      simpa using h
    obtain ⟨symbol, hIn, hNot⟩ := hBad
    exact hNot (hSymbols symbol hIn)

/-- The overlong form of U+0000 in front of a letter is encoded again in two bytes. -/
theorem serialize_deserialized_overlong : ∃ t, Recoded [0xC0, 0x80, 0x41] [0x00, 0x41] t :=
  (@serialize_deserialized [0xC0, 0x80, 0x41] [0x00, 0x41] (by decide)).2 (by simp [Scalar])

end ImpactSockets.Utf8
