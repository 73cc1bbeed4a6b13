import ImpactSockets.Rfc.Base64Encoding
import ImpactSockets.Rfc.Base64Strict

/-! What the encoder makes of the bytes of a text that the decoder has accepted. It need not be
the text: the decoder passes over padding, and over the bits that no byte has a place for. -/
namespace ImpactSockets.Base64

/-- The six bits of a symbol. -/
def value (c : UInt8) : Nat := (reverseLookup c).toNat

/-- The symbols of a text, which may have padding anywhere between them. -/
def symbols (text : Bytes) : Bytes := text.filter (· != kPad)

/-- Symbols in padded quads, the last of them without the bits behind the last byte. -/
def tidied : Bytes → Bytes
  | a :: b :: c :: d :: rest => a :: b :: c :: d :: tidied rest
  | [a, b, c] => [a, b, character (value c / 4 * 4), kPad]
  | [a, b] => [a, character (value b / 16 * 16), kPad, kPad]
  | short => short

/-- The bytes that the bits of symbols fill. -/
def bytesOf : Bytes → Bytes
  | a :: b :: c :: d :: rest =>
      UInt8.ofNat (value a * 4 + value b / 16) :: UInt8.ofNat (value b % 16 * 16 + value c / 4) ::
        UInt8.ofNat (value c % 4 * 64 + value d) :: bytesOf rest
  | [a, b, c] => [UInt8.ofNat (value a * 4 + value b / 16), UInt8.ofNat (value b % 16 * 16 + value c / 4)]
  | [a, b] => [UInt8.ofNat (value a * 4 + value b / 16)]
  | _ => []

/-! ### Symbols -/

/-- Every symbol of the alphabet stands for a value. -/
theorem exists_character {c : UInt8} (h : c ∈ kAlphabet) : ∃ v < 64, character v = c := by
  obtain ⟨v, hBound, hSymbol⟩ := List.mem_iff_getElem.mp h
  exact ⟨v, hBound, by rw [character, List.getD_eq_getElem _ _ hBound, hSymbol]⟩

theorem value_character {v : Nat} (h : v < 64) : value (character v) = v := toNat_reverseLookup h

/-- A symbol stands for six bits. -/
theorem value_lt {c : UInt8} (h : c ∈ kAlphabet) : value c < 64 := by
  obtain ⟨v, hBound, rfl⟩ := exists_character h
  rwa [value_character hBound]

/-- The symbol of its value is the symbol. -/
theorem character_value {c : UInt8} (h : c ∈ kAlphabet) : character (value c) = c := by
  obtain ⟨v, hBound, rfl⟩ := exists_character h
  rw [value_character hBound]

theorem toNat_byte {n : Nat} (h : n < 256) : (UInt8.ofNat n).toNat = n := by
  rw [UInt8.toNat_ofNat']
  omega

/-- The characters that are not padding are symbols. -/
theorem symbols_known {text : Bytes} (hKnown : Known text) : ∀ c ∈ symbols text, c ∈ kAlphabet := by
  intro c hc
  obtain ⟨hText, hSymbol⟩ := List.mem_filter.mp hc
  exact (hKnown c hText).resolve_left (bne_iff_ne.mp hSymbol)

theorem symbols_length (text : Bytes) : (symbols text).length = symbolsOf text := List.countP_eq_length_filter.symm

/-! ### The decoder -/

/-- The padding counted so far has no part in what a symbol does. -/
theorem decodeSymbol_setPadding {c : UInt8} (hSymbol : c ≠ kPad) (remaining remaining' : Nat) (st : DecodeState)
    (padding : UInt16) :
    decodeSymbol c remaining { st with padding := padding } =
      (decodeSymbol c remaining' st).map fun next => { next with padding := padding } := by
  have hPad : ¬(c == kPad) = true := by simpa using hSymbol
  simp only [decodeSymbol, if_neg hPad]
  split_ifs <;> rfl

/-- The decoder does with a text what it does with its symbols. -/
theorem decodeSuffix_symbols (text : Bytes) (st : DecodeState) (padding : UInt16) :
    decodeSuffix (symbols text) { st with padding := padding } =
      ((decodeSuffix text st).1, { (decodeSuffix text st).2 with padding := padding }) := by
  induction text generalizing st with
  | nil => rfl
  | cons c rest ih =>
      by_cases hPad : c = kPad
      · subst hPad
        rw [decodeSuffix, decodeSymbol_padding]
        dsimp only
        rw [← ih]
        split_ifs <;> rfl
      · have hSymbols : symbols (c :: rest) = c :: symbols rest := List.filter_cons_of_pos (by simpa using hPad)
        rw [hSymbols, decodeSuffix, decodeSuffix, decodeSymbol_setPadding hPad _ (rest.length + 1)]
        cases decodeSymbol c (rest.length + 1) st with
        | none => rfl
        | some next => exact ih next

/-- A quad of symbols is an encoded triple. -/
theorem encodeTriple_symbols {a b c d : UInt8} (ha : a ∈ kAlphabet) (hb : b ∈ kAlphabet) (hc : c ∈ kAlphabet)
    (hd : d ∈ kAlphabet) :
    encodeTriple (UInt8.ofNat (value a * 4 + value b / 16)) (UInt8.ofNat (value b % 16 * 16 + value c / 4))
      (UInt8.ofNat (value c % 4 * 64 + value d)) = [a, b, c, d] := by
  have hA := value_lt ha
  have hB := value_lt hb
  have hC := value_lt hc
  have hD := value_lt hd
  rw [encodeTriple_eq, toNat_byte (by omega), toNat_byte (by omega), toNat_byte (by omega)]
  have e0 : (value a * 4 + value b / 16) / 4 = value a := by omega
  have e1 : (value a * 4 + value b / 16) % 4 * 16 + (value b % 16 * 16 + value c / 4) / 16 = value b := by omega
  have e2 : (value b % 16 * 16 + value c / 4) % 16 * 4 + (value c % 4 * 64 + value d) / 64 = value c := by omega
  have e3 : (value c % 4 * 64 + value d) % 64 = value d := by omega
  rw [e0, e1, e2, e3, character_value ha, character_value hb, character_value hc, character_value hd]

/-- Two symbols are read from the beginning of a quad. -/
theorem decodeSuffix_two (stream : Bytes) (padding : UInt16) {a b : UInt8} (ha : a ∈ kAlphabet) (hb : b ∈ kAlphabet)
    (rest : Bytes) :
    decodeSuffix (a :: b :: rest) (holding stream padding 0 0) =
      decodeSuffix rest (holding stream padding 2 ((value a * 64 + value b) * 64)) := by
  obtain ⟨u, hu, rfl⟩ := exists_character ha
  obtain ⟨v, hv, rfl⟩ := exists_character hb
  rw [value_character hu, value_character hv, decodeSuffix,
    decodeSymbol_fill stream padding _ hu (by omega) (by omega) (by omega)]
  dsimp only
  rw [decodeSuffix, decodeSymbol_fill stream padding _ hv (by omega) (by omega) (by omega)]
  simp only [Nat.zero_add]

/-- Three symbols are what is left of the last quad. -/
theorem decodeSuffix_three (stream : Bytes) (padding : UInt16) {a b c : UInt8} (ha : a ∈ kAlphabet)
    (hb : b ∈ kAlphabet) (hc : c ∈ kAlphabet) :
    decodeSuffix [a, b, c] (holding stream padding 0 0) =
      (true, holding stream padding 3 (((value a * 64 + value b) * 64 + value c) * 64)) := by
  have hA := value_lt ha
  have hB := value_lt hb
  obtain ⟨w, hw, rfl⟩ := exists_character hc
  rw [decodeSuffix_two stream padding ha hb, value_character hw, decodeSuffix,
    decodeSymbol_fill stream padding _ hw (by omega) (by omega) (by omega)]
  rfl

/-- The symbols fill their bytes, if the padding is what they leave of a quad. -/
theorem unpadStream_symbols {text : Bytes} (hText : ∀ c ∈ text, c ∈ kAlphabet) {padding : UInt16}
    (hPadding : padding.toNat ≤ 2)
    (hQuad : text.length % 4 + padding.toNat = 0 ∨ text.length % 4 + padding.toNat = 4) (stream : Bytes) :
    ∃ st, decodeSuffix text (holding stream padding 0 0) = (true, st) ∧
      unpadStream st = some (stream ++ bytesOf text) := by
  induction text using tidied.induct generalizing stream with
  | case1 a b c d rest ih =>
      simp only [List.forall_mem_cons] at hText
      obtain ⟨ha, hb, hc, hd, hRest⟩ := hText
      have hLength : (a :: b :: c :: d :: rest).length % 4 = rest.length % 4 := by
        simp only [List.length_cons]
        omega
      rw [hLength] at hQuad
      have hSplit : a :: b :: c :: d :: rest = [a, b, c, d] ++ rest := rfl
      rw [hSplit, ← encodeTriple_symbols ha hb hc hd, decodeSuffix_triple]
      obtain ⟨st, hRun, hUnpad⟩ := ih hRest hQuad (stream ++ [UInt8.ofNat (value a * 4 + value b / 16),
        UInt8.ofNat (value b % 16 * 16 + value c / 4), UInt8.ofNat (value c % 4 * 64 + value d)])
      refine ⟨st, hRun, hUnpad.trans ?_⟩
      rw [encodeTriple_symbols ha hb hc hd, ← hSplit, bytesOf, List.append_assoc]
      rfl
  | case2 a b c =>
      simp only [List.forall_mem_cons] at hText
      obtain ⟨ha, hb, hc, -⟩ := hText
      have hA := value_lt ha
      have hB := value_lt hb
      have hC := value_lt hc
      have hOne : padding = 1 := UInt16.toNat_inj.mp (by
        simp only [List.length_cons, List.length_nil] at hQuad
        rw [UInt16.toNat_one]
        omega)
      subst hOne
      refine ⟨_, decodeSuffix_three stream 1 ha hb hc, ?_⟩
      have e0 : ((value a * 64 + value b) * 64 + value c) * 64 / 65536 = value a * 4 + value b / 16 := by omega
      have e1 : UInt8.ofNat (((value a * 64 + value b) * 64 + value c) * 64 / 256) =
          UInt8.ofNat (value b % 16 * 16 + value c / 4) := by
        apply UInt8.toNat_inj.mp
        rw [UInt8.toNat_ofNat', UInt8.toNat_ofNat']
        omega
      rw [unpadStream_one stream (by omega), e0, e1, bytesOf]
  | case3 a b =>
      simp only [List.forall_mem_cons] at hText
      obtain ⟨ha, hb, -⟩ := hText
      have hA := value_lt ha
      have hB := value_lt hb
      have hTwo : padding = 2 := UInt16.toNat_inj.mp (by
        simp only [List.length_cons, List.length_nil] at hQuad
        simp only [UInt16.reduceToNat]
        omega)
      subst hTwo
      refine ⟨_, decodeSuffix_two stream 2 ha hb [], ?_⟩
      have e0 : (value a * 64 + value b) * 64 * 64 / 65536 = value a * 4 + value b / 16 := by omega
      rw [unpadStream_two stream (by omega), e0, bytesOf]
  | case4 short hQuads hThree hTwo =>
      have hNil : short = [] := by
        rcases short with _ | ⟨a, _ | ⟨b, _ | ⟨c, _ | ⟨d, rest⟩⟩⟩⟩
        · rfl
        · simp only [List.length_singleton] at hQuad
          omega
        · exact (hTwo a b rfl).elim
        · exact (hThree a b c rfl).elim
        · exact (hQuads a b c d rest rfl).elim
      subst hNil
      have hZero : padding = 0 := UInt16.toNat_inj.mp (by
        simp only [List.length_nil] at hQuad
        rw [UInt16.toNat_zero]
        omega)
      subst hZero
      exact ⟨_, rfl, by simp [unpadStream, holding, bytesOf]⟩

/-! ### The encoder -/

/-- The bytes that symbols fill are encoded in these symbols, tidied. -/
theorem encoding_bytesOf {text : Bytes} (hText : ∀ c ∈ text, c ∈ kAlphabet) (hWhole : text.length % 4 ≠ 1) :
    encoding (bytesOf text) = tidied text := by
  induction text using tidied.induct with
  | case1 a b c d rest ih =>
      simp only [List.forall_mem_cons] at hText
      obtain ⟨ha, hb, hc, hd, hRest⟩ := hText
      have hWholeRest : rest.length % 4 ≠ 1 := by
        simp only [List.length_cons] at hWhole
        omega
      rw [bytesOf, encoding_triple, encodeTriple_symbols ha hb hc hd, ih hRest hWholeRest]
      rfl
  | case2 a b c =>
      simp only [List.forall_mem_cons] at hText
      obtain ⟨ha, hb, hc, -⟩ := hText
      have hA := value_lt ha
      have hB := value_lt hb
      have hC := value_lt hc
      rw [bytesOf, encoding_two, padStream_two, toNat_byte (by omega), toNat_byte (by omega)]
      have e0 : (value a * 4 + value b / 16) / 4 = value a := by omega
      have e1 : (value a * 4 + value b / 16) % 4 * 16 + (value b % 16 * 16 + value c / 4) / 16 = value b := by omega
      have e2 : (value b % 16 * 16 + value c / 4) % 16 * 4 = value c / 4 * 4 := by omega
      rw [e0, e1, e2, character_value ha, character_value hb, tidied]
  | case3 a b =>
      simp only [List.forall_mem_cons] at hText
      obtain ⟨ha, hb, -⟩ := hText
      have hA := value_lt ha
      have hB := value_lt hb
      rw [bytesOf, encoding_one, padStream_one, toNat_byte (by omega)]
      have e0 : (value a * 4 + value b / 16) / 4 = value a := by omega
      have e1 : (value a * 4 + value b / 16) % 4 * 16 = value b / 16 * 16 := by omega
      rw [e0, e1, character_value ha, tidied]
  | case4 short hQuads hThree hTwo =>
      rcases short with _ | ⟨a, _ | ⟨b, _ | ⟨c, _ | ⟨d, rest⟩⟩⟩⟩
      · rfl
      · exact (hWhole rfl).elim
      · exact (hTwo a b rfl).elim
      · exact (hThree a b c rfl).elim
      · exact (hQuads a b c d rest rfl).elim

/-- Different octets have different encodings, as they can be decoded. -/
theorem encoding_injective : Function.Injective encoding := by
  intro data data' h
  obtain ⟨st, hRun, hUnpad⟩ := decodeSuffix_encoded data []
  obtain ⟨st', hRun', hUnpad'⟩ := decodeSuffix_encoded data' []
  rw [encoded_eq_encoding] at hRun hRun'
  rw [← h, hRun, Prod.mk.injEq] at hRun'
  rw [← hRun'.2, hUnpad] at hUnpad'
  simpa using hUnpad'

/-! ### Accepted texts -/

/-- What an accepted text is decoded to. -/
theorem returns_bytesOf {text : Bytes} (hLength : text.length < 2 ^ 32) (hKnown : Known text)
    (hComplete : Complete text) (hNe : text ≠ []) (prior : Bytes) :
    Returns text (some prior) ⟨true, .success, some (bytesOf (symbols text))⟩ := by
  have hLoop := runDecode_eq_decodeSuffix text hLength text 0 ⟨[], 0, 0, 0⟩ (text.length + 1) (by simp) (by omega)
  have hCount := lastPadding_le text
  obtain ⟨last, hRun, hLast, -⟩ := @decodeSuffix_known text hKnown ⟨[], 0, 0, 0⟩ (by decide) (by
    rw [UInt16.toNat_zero]
    omega)
  rw [UInt16.toNat_zero, Nat.zero_add] at hLast
  have hQuad :
      (symbols text).length % 4 + last.padding.toNat = 0 ∨ (symbols text).length % 4 + last.padding.toNat = 4 := by
    rw [symbols_length, hLast]
    exact hComplete
  obtain ⟨st, hRunSymbols, hUnpad⟩ := unpadStream_symbols (symbols_known hKnown) (hLast ▸ hCount) hQuad []
  have hSame := decodeSuffix_symbols text ⟨[], 0, 0, 0⟩ last.padding
  rw [hRun] at hSame
  obtain rfl : last = st := congrArg Prod.snd (hSame.symm.trans hRunSymbols)
  refine ⟨text.length + 1, ?_⟩
  rw [decode, if_neg (by simpa using hNe), hLoop, hRun]
  dsimp only
  rw [hUnpad]
  rfl

/-- An accepted text is not all padding. -/
theorem symbols_ne_nil {text : Bytes} (hComplete : Complete text) (hNe : text ≠ []) : symbols text ≠ [] := by
  intro hNil
  have hPad (c : UInt8) (hc : c ∈ text) : c = kPad := by
    have hNot := List.filter_eq_nil_iff.mp hNil c hc
    simpa using hNot
  have hLast : text.getLast hNe ∈ text.drop (text.length - 2) := by
    have hDrop : text.drop (text.length - 2) ≠ [] := by
      rw [Ne, List.drop_eq_nil_iff]
      have hPositive := List.length_pos_iff.mpr hNe
      omega
    rw [← List.getLast_drop hDrop]
    exact List.getLast_mem hDrop
  rw [hPad _ (List.getLast_mem hNe)] at hLast
  have hSome : 0 < lastPadding text := List.count_pos_iff.mpr hLast
  have hCount := lastPadding_le text
  have hNone : symbolsOf text = 0 := by rw [← symbols_length, hNil, List.length_nil]
  rw [Complete, hNone] at hComplete
  omega

/-- An accepted text, with the bytes it is decoded to. -/
theorem accepted_bytesOf {text prior : Bytes} {outcome : Outcome} (hLength : text.length < 2 ^ 32) (hNe : text ≠ [])
    (h : Returns text (some prior) outcome) (hOk : outcome.ok = true) :
    outcome = ⟨true, .success, some (bytesOf (symbols text))⟩ ∧
      encoding (bytesOf (symbols text)) = tidied (symbols text) ∧ bytesOf (symbols text) ≠ [] := by
  obtain ⟨expected, hReturns, hAccepted, -⟩ := returns_accepted hLength (some prior)
  obtain rfl := returns_unique h hReturns
  obtain ⟨hKnown, hComplete⟩ := hAccepted.mp hOk
  have hCount := lastPadding_le text
  have hEncoding := encoding_bytesOf (symbols_known hKnown) fun hOne => by
    rw [symbols_length] at hOne
    rcases hComplete with hZero | hFour <;> omega
  refine ⟨returns_unique h (returns_bytesOf hLength hKnown hComplete hNe prior), hEncoding, fun hNil => ?_⟩
  have hSymbols := symbols_ne_nil hComplete hNe
  rw [hNil] at hEncoding
  rcases hText : symbols text with _ | ⟨a, _ | ⟨b, _ | ⟨c, _ | ⟨d, rest⟩⟩⟩⟩
  · exact hSymbols hText
  all_goals
    rw [hText] at hEncoding
    cases hEncoding

/-- The bytes of an accepted text are encoded in its symbols, padded to whole quads, with
zeros for the bits that are behind the last byte. -/
theorem recoded {text prior : Bytes} {outcome : Outcome} (hLength : text.length < 2 ^ 32) (hNe : text ≠ [])
    (h : Returns text (some prior) outcome) (hOk : outcome.ok = true) :
    ∃ data, outcome.result = some data ∧ ∀ before,
      encode data (some before) = ⟨true, .success, some (tidied (symbols text))⟩ := by
  obtain ⟨rfl, hEncoding, hData⟩ := accepted_bytesOf hLength hNe h hOk
  refine ⟨_, rfl, fun before => ?_⟩
  rw [encode, if_neg (by simpa using hData), encoded_eq_encoding, hEncoding]
  rfl

/-- `"Zm=v"` comes back as `"Zms="`. -/
theorem recoded_innerPadding :
    ∃ data, (⟨true, .success, some [0x66, 0x6B]⟩ : Outcome).result = some data ∧ ∀ before,
      encode data (some before) = ⟨true, .success, some (tidied (symbols [0x5A, 0x6D, kPad, 0x76]))⟩ :=
  @recoded [0x5A, 0x6D, kPad, 0x76] [] _ (by decide) (by decide) ⟨5, by decide +kernel⟩ rfl

/-- Two accepted texts have the same bytes if and only if they have the same symbols but for
the bits behind the last byte. -/
theorem decoded_eq_iff {first second prior prior' : Bytes} {outcome outcome' : Outcome}
    (hLength : first.length < 2 ^ 32) (hLength' : second.length < 2 ^ 32) (hNe : first ≠ []) (hNe' : second ≠ [])
    (hFirst : Returns first (some prior) outcome) (hSecond : Returns second (some prior') outcome')
    (hOk : outcome.ok = true) (hOk' : outcome'.ok = true) :
    outcome.result = outcome'.result ↔ tidied (symbols first) = tidied (symbols second) := by
  obtain ⟨rfl, hEncoding, -⟩ := accepted_bytesOf hLength hNe hFirst hOk
  obtain ⟨rfl, hEncoding', -⟩ := accepted_bytesOf hLength' hNe' hSecond hOk'
  rw [← hEncoding, ← hEncoding']
  simp [encoding_injective.eq_iff]

/-- `"Zm=v"` and `"Zms="`. -/
theorem decoded_eq_iff_innerPadding :
    (Outcome.mk true .success (some [0x66, 0x6B])).result = (Outcome.mk true .success (some [0x66, 0x6B])).result ↔
      tidied (symbols [0x5A, 0x6D, kPad, 0x76]) = tidied (symbols [0x5A, 0x6D, 0x73, kPad]) :=
  @decoded_eq_iff [0x5A, 0x6D, kPad, 0x76] [0x5A, 0x6D, 0x73, kPad] [] [] _ _ (by decide) (by decide) (by decide)
    (by decide) ⟨5, by decide +kernel⟩ ⟨5, by decide +kernel⟩ rfl rfl

end ImpactSockets.Base64
