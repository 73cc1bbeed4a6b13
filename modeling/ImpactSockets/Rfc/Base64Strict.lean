import ImpactSockets.Rfc.Base64Encoding

/-! Which strings the decoder accepts. It counts the symbols, and the padding
among the last two characters. Padding in front of these is passed over. -/
namespace ImpactSockets.Base64

/-- Every character is a symbol or padding. -/
def Known (data : Bytes) : Prop := ∀ c ∈ data, c = kPad ∨ c ∈ kAlphabet

/-- Padding has nothing but padding behind it, and there are at most two of it. -/
def Placed (data : Bytes) : Prop :=
  ∃ symbols padding, data = symbols ++ List.replicate padding kPad ∧ padding ≤ 2 ∧ kPad ∉ symbols

def symbolsOf (data : Bytes) : Nat := data.countP (· != kPad)

/-- The padding that is counted. -/
def lastPadding (data : Bytes) : Nat := (data.drop (data.length - 2)).count kPad

/-- Symbols that fill quads, together with the padding that is counted. -/
def Complete (data : Bytes) : Prop :=
  symbolsOf data % 4 + lastPadding data = 0 ∨ symbolsOf data % 4 + lastPadding data = 4

/-- Padded base64: quads of symbols, of which the last one may end with one or
two paddings. -/
def Padded (data : Bytes) : Prop :=
  data.length % 4 = 0 ∧ ∃ symbols padding, data = symbols ++ List.replicate padding kPad ∧ padding ≤ 2 ∧
    ∀ c ∈ symbols, c ∈ kAlphabet

/-! ### Padded base64 by its counts -/

theorem pad_not_symbol : kPad ∉ kAlphabet := by
  decide

/-- Only the last two characters are counted. -/
theorem lastPadding_cons (c : UInt8) (rest : Bytes) :
    lastPadding (c :: rest) = lastPadding rest + if c = kPad ∧ rest.length + 1 ≤ 2 then 1 else 0 := by
  unfold lastPadding
  by_cases hShort : rest.length + 1 ≤ 2
  · have hAll : (c :: rest).length - 2 = 0 := by
      rw [List.length_cons]
      omega
    have hRest : rest.length - 2 = 0 := by omega
    rw [hAll, hRest, List.drop_zero, List.drop_zero, List.count_cons]
    simp [hShort]
  · have hIndex : (c :: rest).length - 2 = rest.length - 2 + 1 := by
      rw [List.length_cons]
      omega
    rw [hIndex, List.drop_succ_cons, if_neg (fun h => hShort h.2), Nat.add_zero]

/-- At most two paddings are at the end. -/
theorem lastPadding_le (data : Bytes) : lastPadding data ≤ 2 := by
  have hCount : lastPadding data ≤ (data.drop (data.length - 2)).length := List.count_le_length
  rw [List.length_drop] at hCount
  omega

/-- The counts of a string whose padding is at its end. -/
theorem counts_placed {symbols : Bytes} {padding : Nat} (hPadding : padding ≤ 2) (hSymbols : kPad ∉ symbols) :
    symbolsOf (symbols ++ List.replicate padding kPad) = symbols.length ∧
      lastPadding (symbols ++ List.replicate padding kPad) = padding := by
  constructor
  · have hAll : symbols.countP (· != kPad) = symbols.length := by
      rw [List.countP_eq_length]
      intro c hc
      rw [bne_iff_ne]
      rintro rfl
      exact hSymbols hc
    rw [symbolsOf, List.countP_append, hAll, List.countP_replicate]
    simp
  · have hIndex : (symbols ++ List.replicate padding kPad).length - 2 - symbols.length = 0 := by
      rw [List.length_append, List.length_replicate]
      omega
    have hNone (n : Nat) : (symbols.drop n).count kPad = 0 :=
      List.count_eq_zero.mpr fun hMem => hSymbols (List.mem_of_mem_drop hMem)
    rw [lastPadding, List.drop_append, hIndex, List.drop_zero, List.count_append, hNone, List.count_replicate_self,
      Nat.zero_add]

/-- The conditions of the RFC, one for each thing the decoder does not check. -/
theorem padded_iff (data : Bytes) : Padded data ↔ Placed data ∧ Known data ∧ Complete data := by
  constructor
  · rintro ⟨hLength, symbols, padding, rfl, hPadding, hSymbols⟩
    have hNot : kPad ∉ symbols := fun hMem => pad_not_symbol (hSymbols kPad hMem)
    obtain ⟨hCount, hLast⟩ := counts_placed hPadding hNot
    rw [List.length_append, List.length_replicate] at hLength
    refine ⟨⟨symbols, padding, rfl, hPadding, hNot⟩, ?_, ?_⟩
    · intro c hc
      rcases List.mem_append.mp hc with hc | hc
      · exact .inr (hSymbols c hc)
      · exact .inl (List.eq_of_mem_replicate hc)
    · unfold Complete
      omega
  · rintro ⟨⟨symbols, padding, rfl, hPadding, hNot⟩, hKnown, hComplete⟩
    obtain ⟨hCount, hLast⟩ := counts_placed hPadding hNot
    refine ⟨?_, symbols, padding, rfl, hPadding, ?_⟩
    · unfold Complete at hComplete
      rw [List.length_append, List.length_replicate]
      omega
    · intro c hc
      rcases hKnown c (List.mem_append_left _ hc) with rfl | hc
      · exact absurd hc hNot
      · exact hc

/-! ### What the decoder counts -/

set_option maxRecDepth 4000 in
theorem symbol_of_reverseLookup : ∀ c : UInt8,
    reverseLookup c = 0x40 ∨ kAlphabet[(reverseLookup c).toNat]? = some c := by
  decide +kernel

/-- The reverse table has its mark for exactly the other characters. -/
theorem reverseLookup_unknown (c : UInt8) : reverseLookup c = 0x40 ↔ c ∉ kAlphabet := by
  constructor
  · intro hUnknown hSymbol
    obtain ⟨value, hValue, hCharacter⟩ := List.mem_iff_getElem.mp hSymbol
    have hLookup := toNat_reverseLookup (show value < 64 from hValue)
    rw [character, List.getD_eq_getElem _ _ hValue, hCharacter, hUnknown] at hLookup
    exact absurd hValue (hLookup ▸ by decide)
  · intro hSymbol
    rcases symbol_of_reverseLookup c with hUnknown | hLookup
    · exact hUnknown
    · exact absurd (List.mem_of_getElem? hLookup) hSymbol

/-- A padding is counted among the last two characters and skipped before. -/
theorem decodeSymbol_padding (remaining : Nat) (st : DecodeState) :
    decodeSymbol kPad remaining st =
      some (if remaining ≤ 2 then { st with padding := st.padding + 1 } else st) := rfl

/-- A character that is neither padding nor a symbol ends the decoding. -/
theorem decodeSymbol_unknown {c : UInt8} (hPad : c ≠ kPad) (hUnknown : c ∉ kAlphabet) (remaining : Nat)
    (st : DecodeState) : decodeSymbol c remaining st = none := by
  simp [decodeSymbol, hPad, (reverseLookup_unknown c).mpr hUnknown]

/-- A symbol is counted up to four. -/
theorem decodeSymbol_symbol {c : UInt8} (hSymbol : c ∈ kAlphabet) (remaining : Nat) {st : DecodeState}
    (hTally : st.tally.toNat < 4) :
    ∃ next, decodeSymbol c remaining st = some next ∧ next.padding = st.padding ∧
      next.tally.toNat = (st.tally.toNat + 1) % 4 := by
  have hPad : c ≠ kPad := by
    rintro rfl
    exact pad_not_symbol hSymbol
  have hKnown : reverseLookup c ≠ 0x40 := fun hUnknown => (reverseLookup_unknown c).mp hUnknown hSymbol
  have hNext : (st.tally + 1).toNat = st.tally.toNat + 1 := by
    rw [UInt16.toNat_add, UInt16.toNat_one]
    omega
  simp only [decodeSymbol, beq_iff_eq, hPad, hKnown, if_false]
  by_cases hQuad : st.tally + 1 = 4
  · rw [if_pos hQuad]
    refine ⟨_, rfl, rfl, ?_⟩
    have hFour : st.tally.toNat + 1 = 4 := by
      rw [← hNext, hQuad]
      rfl
    rw [hFour]
    rfl
  · rw [if_neg hQuad]
    refine ⟨_, rfl, rfl, ?_⟩
    have hFour : st.tally.toNat + 1 ≠ 4 := by
      intro hEq
      exact hQuad (UInt16.toNat_inj.mp (hNext.trans hEq))
    rw [hNext]
    omega

/-- The decoder reads known characters to the end. -/
theorem decodeSuffix_known {data : Bytes} (hKnown : Known data) {st : DecodeState} (hTally : st.tally.toNat < 4)
    (hPadding : st.padding.toNat + lastPadding data < 2 ^ 16) :
    ∃ last, decodeSuffix data st = (true, last) ∧ last.padding.toNat = st.padding.toNat + lastPadding data ∧
      last.tally.toNat = (st.tally.toNat + symbolsOf data) % 4 := by
  induction data generalizing st with
  | nil => exact ⟨st, rfl, rfl, (Nat.mod_eq_of_lt hTally).symm⟩
  | cons c rest ih =>
      obtain ⟨hFirst, hRest⟩ := List.forall_mem_cons.mp hKnown
      rw [lastPadding_cons] at hPadding ⊢
      rw [decodeSuffix, symbolsOf, List.countP_cons]
      by_cases hPad : c = kPad
      · subst hPad
        rw [decodeSymbol_padding]
        by_cases hShort : rest.length + 1 ≤ 2
        · simp only [hShort, and_self, if_true] at hPadding ⊢
          have hOne : (st.padding + 1).toNat = st.padding.toNat + 1 := by
            rw [UInt16.toNat_add, UInt16.toNat_one]
            omega
          obtain ⟨last, hRun, hLast, hCount⟩ := @ih hRest { st with padding := st.padding + 1 } hTally (by
            simp only [hOne]
            omega)
          refine ⟨last, hRun, ?_, by simpa [symbolsOf] using hCount⟩
          rw [hLast, hOne]
          omega
        · simp only [hShort, and_false, if_false] at hPadding ⊢
          obtain ⟨last, hRun, hLast, hCount⟩ := @ih hRest st hTally hPadding
          exact ⟨last, hRun, hLast, by simpa [symbolsOf] using hCount⟩
      · obtain ⟨next, hNext, hSame, hTallyNext⟩ := decodeSymbol_symbol (hFirst.resolve_left hPad) (rest.length + 1) hTally
        simp only [hPad, false_and, if_false, Nat.add_zero] at hPadding ⊢
        obtain ⟨last, hRun, hLast, hCount⟩ := @ih hRest next (by omega) (hSame ▸ hPadding)
        rw [hNext]
        refine ⟨last, hRun, hSame ▸ hLast, ?_⟩
        have hSymbol : (c != kPad) = true := bne_iff_ne.mpr hPad
        rw [hCount, hTallyNext, if_pos hSymbol, symbolsOf]
        omega

/-- It stops at any other character. -/
theorem decodeSuffix_unknown {data : Bytes} (hUnknown : ¬Known data) {st : DecodeState} (hTally : st.tally.toNat < 4) :
    ∃ last, decodeSuffix data st = (false, last) := by
  induction data generalizing st with
  | nil => exact absurd (fun c hc => absurd hc List.not_mem_nil) hUnknown
  | cons c rest ih =>
      rw [decodeSuffix]
      by_cases hPad : c = kPad
      · subst hPad
        have hRest : ¬Known rest := fun hRest => hUnknown (List.forall_mem_cons.mpr ⟨.inl rfl, hRest⟩)
        rw [decodeSymbol_padding]
        apply ih hRest
        split_ifs <;> exact hTally
      · by_cases hSymbol : c ∈ kAlphabet
        · have hRest : ¬Known rest := fun hRest => hUnknown (List.forall_mem_cons.mpr ⟨.inr hSymbol, hRest⟩)
          obtain ⟨next, hNext, _, hTallyNext⟩ := decodeSymbol_symbol hSymbol (rest.length + 1) hTally
          rw [hNext]
          exact ih hRest (by omega)
        · rw [decodeSymbol_unknown hPad hSymbol]
          exact ⟨st, rfl⟩

/-- The padding and the symbols of the last quad have to add up. -/
theorem unpadStream_isSome (st : DecodeState) :
    (unpadStream st).isSome = true ↔
      st.tally.toNat + st.padding.toNat = 0 ∨ st.tally.toNat + st.padding.toNat = 4 := by
  unfold unpadStream
  by_cases hFour : st.padding.toNat + st.tally.toNat = 4
  · rw [if_pos hFour]
    exact iff_of_true rfl (.inr (by omega))
  · rw [if_neg hFour]
    by_cases hZero : st.padding.toNat + st.tally.toNat = 0
    · rw [if_neg (not_not.mpr hZero)]
      exact iff_of_true rfl (.inl (by omega))
    · rw [if_pos hZero]
      exact iff_of_false (by simp) (by omega)

/-! ### The whole decoder -/

/-- The call comes back, after some number of iterations. -/
def Returns (data : Bytes) (prior : Option Bytes) (outcome : Outcome) : Prop :=
  ∃ fuel, decode fuel data prior = some outcome

/-- What the decoder is to do: it accepts padded base64 and nothing else, leaves
the result as it is when it refuses, and never shifts by a negative amount. -/
structure DecodesStrictly (data : Bytes) : Prop where
  accepted : ∀ prior, ∃ outcome, Returns data prior outcome ∧ (outcome.ok = true ↔ Padded data)
  unchanged : ∀ prior outcome, Returns data prior outcome → outcome.ok = false → outcome.result = prior
  shift : ∀ fuel st, runDecode data fuel 0 ⟨[], 0, 0, 0⟩ = some (true, st) →
    st.padding.toNat + st.tally.toNat = 4 → 0 ≤ unpadShift st.padding

/-- A call returns at most one outcome. -/
theorem returns_unique {data : Bytes} {prior : Option Bytes} {first second : Outcome}
    (hFirst : Returns data prior first) (hSecond : Returns data prior second) : first = second := by
  obtain ⟨fuel, hFirst⟩ := hFirst
  obtain ⟨fuel', hSecond⟩ := hSecond
  unfold decode at hFirst hSecond
  by_cases hNil : data.length = 0
  · rw [if_pos hNil] at hFirst hSecond
    exact Option.some.inj (hFirst.symm.trans hSecond)
  · rw [if_neg hNil] at hFirst hSecond
    cases hRun : runDecode data fuel 0 ⟨[], 0, 0, 0⟩ with
    | none =>
        rw [hRun] at hFirst
        cases hFirst
    | some last =>
        cases hRun' : runDecode data fuel' 0 ⟨[], 0, 0, 0⟩ with
        | none =>
            rw [hRun'] at hSecond
            cases hSecond
        | some last' =>
            cases runDecode_unique hRun hRun'
            rw [hRun] at hFirst
            rw [hRun'] at hSecond
            exact Option.some.inj (hFirst.symm.trans hSecond)

/-- The exact strings that are accepted. -/
theorem returns_accepted {data : Bytes} (hLength : data.length < 2 ^ 32) (prior : Option Bytes) :
    ∃ outcome, Returns data prior outcome ∧ (outcome.ok = true ↔ Known data ∧ Complete data) ∧
      (outcome.ok = false → outcome.result = prior) := by
  by_cases hNil : data.length = 0
  · obtain rfl := List.length_eq_zero_iff.mp hNil
    refine ⟨⟨true, .success, prior⟩, ⟨0, rfl⟩, iff_of_true rfl ⟨by simp [Known], .inl rfl⟩, ?_⟩
    intro hOk
    cases hOk
  have hLoop := runDecode_eq_decodeSuffix data hLength data 0 ⟨[], 0, 0, 0⟩ (data.length + 1) (by simp) (by omega)
  have hStart : (⟨[], 0, 0, 0⟩ : DecodeState).tally.toNat < 4 := by decide
  by_cases hKnown : Known data
  · have hPadding := lastPadding_le data
    obtain ⟨last, hRun, hLast, hCount⟩ := @decodeSuffix_known data hKnown ⟨[], 0, 0, 0⟩ hStart (by
      rw [UInt16.toNat_zero]
      omega)
    rw [UInt16.toNat_zero, Nat.zero_add] at hLast hCount
    have hUnpad : (unpadStream last).isSome = true ↔ Complete data := by
      rw [unpadStream_isSome, hLast, hCount]
      rfl
    rw [hRun] at hLoop
    cases hStream : unpadStream last with
    | none =>
        refine ⟨⟨false, .b64Badpad, prior⟩, ⟨data.length + 1, ?_⟩, ?_, fun _ => rfl⟩
        · rw [decode, if_neg hNil, hLoop]
          dsimp only
          rw [hStream]
        · rw [and_iff_right hKnown, ← hUnpad, hStream]
          rfl
    | some stream =>
        refine ⟨⟨true, .success, prior.map fun _ => stream⟩, ⟨data.length + 1, ?_⟩, ?_, ?_⟩
        · rw [decode, if_neg hNil, hLoop]
          dsimp only
          rw [hStream]
        · rw [and_iff_right hKnown, ← hUnpad, hStream]
          rfl
        · intro hOk
          cases hOk
  · obtain ⟨last, hRun⟩ := decodeSuffix_unknown hKnown hStart
    rw [hRun] at hLoop
    refine ⟨⟨false, .b64Badsym, prior⟩, ⟨data.length + 1, ?_⟩, iff_of_false (by simp) fun h => hKnown h.1, fun _ => rfl⟩
    rw [decode, if_neg hNil, hLoop]

/-- There is padding when padding and symbols add up to four. -/
theorem shift_nonneg {data : Bytes} (hLength : data.length < 2 ^ 32) {fuel : Nat} {st : DecodeState}
    (hRun : runDecode data fuel 0 ⟨[], 0, 0, 0⟩ = some (true, st)) (hFour : st.padding.toNat + st.tally.toNat = 4) :
    0 ≤ unpadShift st.padding := by
  have hLoop := runDecode_eq_decodeSuffix data hLength data 0 ⟨[], 0, 0, 0⟩ (data.length + 1) (by simp) (by omega)
  have hStart : (⟨[], 0, 0, 0⟩ : DecodeState).tally.toNat < 4 := by decide
  have hEnd := runDecode_unique hRun hLoop
  by_cases hKnown : Known data
  · have hPadding := lastPadding_le data
    obtain ⟨last, hSuffix, _, hCount⟩ := @decodeSuffix_known data hKnown ⟨[], 0, 0, 0⟩ hStart (by
      rw [UInt16.toNat_zero]
      omega)
    rw [hSuffix] at hEnd
    cases hEnd
    have hTally : st.tally.toNat < 4 := by
      rw [hCount]
      exact Nat.mod_lt _ (by decide)
    unfold unpadShift kSymbolSize
    omega
  · obtain ⟨last, hSuffix⟩ := decodeSuffix_unknown hKnown hStart
    rw [hSuffix] at hEnd
    cases hEnd

/-- The decoder is strict unless it passes over padding in a string whose other
characters are symbols that, with the padding counted, fill their quads. -/
theorem decodesStrictly_iff {data : Bytes} (hLength : data.length < 2 ^ 32) :
    DecodesStrictly data ↔ Placed data ∨ ¬Known data ∨ ¬Complete data := by
  constructor
  · intro h
    by_contra hNot
    simp only [not_or, not_not] at hNot
    obtain ⟨outcome, hReturns, hOk⟩ := h.accepted none
    obtain ⟨other, hOther, hAccepted, _⟩ := returns_accepted hLength none
    cases returns_unique hReturns hOther
    have hPadded := hOk.mp (hAccepted.mpr hNot.2)
    exact hNot.1 ((padded_iff data).mp hPadded).1
  · intro h
    have hPlaced : Known data ∧ Complete data ↔ Padded data := by
      rw [padded_iff]
      tauto
    refine ⟨?_, ?_, fun fuel st => shift_nonneg hLength⟩
    · intro prior
      obtain ⟨outcome, hReturns, hAccepted, _⟩ := returns_accepted hLength prior
      exact ⟨outcome, hReturns, hAccepted.trans hPlaced⟩
    · intro prior outcome hReturns hOk
      obtain ⟨other, hOther, _, hUnchanged⟩ := returns_accepted hLength prior
      cases returns_unique hReturns hOther
      exact hUnchanged hOk

/-- The string "Zg==". -/
theorem decodesStrictly_iff_padded :
    DecodesStrictly [0x5A, 0x67, kPad, kPad] ↔ Placed [0x5A, 0x67, kPad, kPad] ∨
      ¬Known [0x5A, 0x67, kPad, kPad] ∨ ¬Complete [0x5A, 0x67, kPad, kPad] :=
  decodesStrictly_iff (by decide)

/-- In "Zm=v" the padding is followed by a symbol. -/
theorem innerPadding_accepted :
    decode 5 [0x5A, 0x6D, kPad, 0x76] (some []) = some ⟨true, .success, some [0x66, 0x6B]⟩ ∧
      ¬DecodesStrictly [0x5A, 0x6D, kPad, 0x76] := by
  have hRun : decode 5 [0x5A, 0x6D, kPad, 0x76] (some []) = some ⟨true, .success, some [0x66, 0x6B]⟩ := by
    decide +kernel
  refine ⟨hRun, ?_⟩
  intro h
  obtain ⟨outcome, hReturns, hOk⟩ := h.accepted (some [])
  cases returns_unique hReturns ⟨5, hRun⟩
  obtain ⟨_, symbols, padding, hText, _, hSymbols⟩ := hOk.mp rfl
  cases padding with
  | zero =>
      rw [List.replicate_zero, List.append_nil] at hText
      exact pad_not_symbol (hSymbols kPad (by simp [← hText]))
  | succ padding =>
      rw [List.replicate_succ', ← List.append_assoc] at hText
      have hLast := congrArg List.getLast? hText
      rw [List.getLast?_concat] at hLast
      exact absurd hLast (by decide)

end ImpactSockets.Base64
