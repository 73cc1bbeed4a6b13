import ImpactSockets.Library.Registers
import ImpactSockets.Rfc.Base64

/-! Encoding and decoding back, `rfc/base64.cpp`. The registers are followed by
the numbers they hold, and the decoder's loop by the bytes still to be read. -/
namespace ImpactSockets.Base64

open Registers

/-- The alphabet's character for a 6-bit value. -/
def character (value : Nat) : UInt8 := kAlphabet.getD value 0

set_option maxRecDepth 4000 in
/-- The reverse table inverts the alphabet, and no symbol is the padding. -/
private theorem character_spec : ∀ value : Fin 64,
    (reverseLookup (character value.val)).toNat = value.val ∧ character value.val ≠ kPad := by
  decide

theorem toNat_reverseLookup {value : Nat} (h : value < 64) :
    (reverseLookup (character value)).toNat = value := (character_spec ⟨value, h⟩).1

theorem character_ne_pad {value : Nat} (h : value < 64) : character value ≠ kPad :=
  (character_spec ⟨value, h⟩).2

/-- The mask takes six bits. -/
private theorem toNat_masked (register : UInt32) :
    (register &&& kSymbol).toUInt16.toNat = register.toNat % 64 := by
  have hMask : (register &&& kSymbol).toNat = register.toNat % 64 := toNat_mask register _ 6 rfl
  rw [UInt32.toNat_toUInt16, hMask]
  omega

private theorem toNat_shifted (register : UInt32) :
    (register >>> kSymbolSize.toUInt32).toNat = register.toNat / 64 :=
  toNat_shiftRight register _ (by decide)

/-- The register that a triple of bytes is loaded into. -/
theorem toNat_triple (b0 b1 b2 : UInt8) :
    ((b0.toUInt32 <<< 16) ||| (b1.toUInt32 <<< 8) ||| b2.toUInt32).toNat =
      b0.toNat * 65536 + b1.toNat * 256 + b2.toNat := by
  have h0 := b0.toNat_lt
  have h1 := b1.toNat_lt
  have h2 := b2.toNat_lt
  have hHigh : (b0.toUInt32 <<< 16).toNat = b0.toNat * 65536 := by
    rw [toNat_shiftLeft _ _ (by decide) (by simp; omega)]
    simp
  have hMiddle : (b1.toUInt32 <<< 8).toNat = b1.toNat * 256 := by
    rw [toNat_shiftLeft _ _ (by decide) (by simp; omega)]
    simp
  have hTop : ((b0.toUInt32 <<< 16) ||| (b1.toUInt32 <<< 8)).toNat =
      b0.toNat * 65536 + b1.toNat * 256 := by
    rw [toNat_fill 16 (by rw [hHigh]; exact ⟨b0.toNat, by omega⟩) (by omega), hHigh, hMiddle]
  rw [toNat_fill 8 (by rw [hTop]; exact ⟨b0.toNat * 256 + b1.toNat, by omega⟩) (by simpa using h2), hTop,
    UInt8.toNat_toUInt32]

/-- Three octets are four groups of six bits. -/
theorem encodeTriple_eq (b0 b1 b2 : UInt8) :
    encodeTriple b0 b1 b2 =
      [character (b0.toNat / 4), character (b0.toNat % 4 * 16 + b1.toNat / 16),
        character (b1.toNat % 16 * 4 + b2.toNat / 64), character (b2.toNat % 64)] := by
  have h0 := b0.toNat_lt
  have h1 := b1.toNat_lt
  have h2 := b2.toNat_lt
  let register := b0.toNat * 65536 + b1.toNat * 256 + b2.toNat
  have e0 : register / 64 / 64 / 64 % 64 = b0.toNat / 4 := by omega
  have e1 : register / 64 / 64 % 64 = b0.toNat % 4 * 16 + b1.toNat / 16 := by omega
  have e2 : register / 64 % 64 = b1.toNat % 16 * 4 + b2.toNat / 64 := by omega
  have e3 : register % 64 = b2.toNat % 64 := by omega
  simp only [encodeTriple, unloadQuad, List.map_cons, List.map_nil, symbol, toNat_masked,
    toNat_shifted, toNat_triple, character]
  rw [e0, e1, e2, e3]

/-- The padding by the length modulo three. -/
private theorem padCount_cases (length : Nat) :
    (length % 3 = 0 ∧ padCount length = 0) ∨ (length % 3 = 1 ∧ padCount length = 2) ∨
      (length % 3 = 2 ∧ padCount length = 1) := by
  have hMod : length % 3 = 0 ∨ length % 3 = 1 ∨ length % 3 = 2 := by omega
  rcases hMod with h | h | h
  · have hNext : (length + 1) % 3 = 1 := by omega
    simp [padCount, h, hNext]
  · have hNext : (length + 1) % 3 = 2 := by omega
    simp [padCount, h, hNext]
  · have hNext : (length + 1) % 3 = 0 := by omega
    simp [padCount, h, hNext]

/-- A complete triple does not change what the tail looks like. -/
theorem padStream_triple (b0 b1 b2 : UInt8) (rest : Bytes) :
    padStream (b0 :: b1 :: b2 :: rest) = padStream rest := by
  have hCount : padCount (b0 :: b1 :: b2 :: rest).length = padCount rest.length := by
    simp only [List.length_cons]
    rcases padCount_cases rest.length with ⟨_, hp⟩ | ⟨_, hp⟩ | ⟨_, hp⟩ <;>
      rcases padCount_cases (rest.length + 1 + 1 + 1) with ⟨_, hq⟩ | ⟨_, hq⟩ | ⟨_, hq⟩ <;> omega
  have hRead (i k : Nat) (hi : i = k + 3) :
      (b0 :: b1 :: b2 :: rest).getD i 0 = rest.getD k 0 := by
    subst hi
    rfl
  have hLoad (hPad : padCount rest.length ≠ 0) :
      loadTail (b0 :: b1 :: b2 :: rest) (padCount rest.length) =
        loadTail rest (padCount rest.length) := by
    have hLength : 3 ≤ rest.length + padCount rest.length ∧ 1 ≤ rest.length := by
      rcases padCount_cases rest.length with ⟨_, hp⟩ | ⟨_, hp⟩ | ⟨_, hp⟩ <;> omega
    unfold loadTail
    rw [hRead _ (rest.length + padCount rest.length - 3) (by simp only [List.length_cons]; omega),
      hRead _ (rest.length - 1) (by simp only [List.length_cons]; omega)]
  unfold padStream
  rw [hCount]
  by_cases hPad : padCount rest.length = 0
  · simp [hPad]
  · simp [hPad, hLoad hPad]

/-- One octet is left: two symbols and two paddings. -/
theorem padStream_one (b : UInt8) :
    padStream [b] = [character (b.toNat / 4), character (b.toNat % 4 * 16), kPad, kPad] := by
  have hb := b.toNat_lt
  have hShift : (b.toUInt32 <<< 16).toNat = b.toNat * 65536 := by
    rw [toNat_shiftLeft _ _ (by decide) (by simp; omega)]
    simp
  have hLoad : (loadTail [b] 2).toNat = b.toNat * 65536 / 64 := by
    rw [show loadTail [b] 2 = (b.toUInt32 <<< 16) >>> kSymbolSize.toUInt32 from rfl,
      toNat_shifted, hShift]
  have e0 : b.toNat * 65536 / 64 / 64 / 64 % 64 = b.toNat / 4 := by omega
  have e1 : b.toNat * 65536 / 64 / 64 % 64 = b.toNat % 4 * 16 := by omega
  have hUnfold : padStream [b] = (unloadTail 2 (loadTail [b] 2) []).map symbol ++ [kPad, kPad] := rfl
  rw [hUnfold]
  simp only [unloadTail, symbol, List.map_cons, List.map_nil, toNat_masked, toNat_shifted, hLoad,
    e0, e1]
  rfl

/-- Two octets are left: three symbols and one padding. -/
theorem padStream_two (b0 b1 : UInt8) :
    padStream [b0, b1] =
      [character (b0.toNat / 4), character (b0.toNat % 4 * 16 + b1.toNat / 16),
        character (b1.toNat % 16 * 4), kPad] := by
  have h0 := b0.toNat_lt
  have h1 := b1.toNat_lt
  have hUnfold : padStream [b0, b1] =
      (unloadTail 3 (loadTail [b0, b1] 1) []).map symbol ++ [kPad] := by
    simp [padStream, padCount]
  have hRegister : loadTail [b0, b1] 1 =
      (b0.toUInt32 <<< 16) ||| (b1.toUInt32 <<< 8) ||| (0 : UInt8).toUInt32 := by
    simp [loadTail]
  have hLoad : (loadTail [b0, b1] 1).toNat = b0.toNat * 65536 + b1.toNat * 256 := by
    rw [hRegister, toNat_triple]
    simp
  have e0 : (b0.toNat * 65536 + b1.toNat * 256) / 64 / 64 / 64 % 64 = b0.toNat / 4 := by omega
  have e1 : (b0.toNat * 65536 + b1.toNat * 256) / 64 / 64 % 64 = b0.toNat % 4 * 16 + b1.toNat / 16 := by omega
  have e2 : (b0.toNat * 65536 + b1.toNat * 256) / 64 % 64 = b1.toNat % 16 * 4 := by omega
  rw [hUnfold]
  simp only [unloadTail, symbol, List.map_cons, List.map_nil, toNat_masked, toNat_shifted, hLoad,
    e0, e1, e2]
  rfl

/-! ### The decoder on the symbols of an encoded string -/

/-- `_S_run_decode` over the bytes still to be read, with a counter that does
not wrap. -/
def decodeSuffix : Bytes → DecodeState → Bool × DecodeState
  | [], st => (true, st)
  | c :: rest, st =>
      match decodeSymbol c (rest.length + 1) st with
      | none => (false, st)
      | some next => decodeSuffix rest next

/-- Below `2 ^ 32` bytes the loop counter never wraps, so the loop ends. -/
theorem runDecode_eq_decodeSuffix (data : Bytes) (hLength : data.length < 2 ^ 32)
    (suffix : Bytes) (i : UInt32) (st : DecodeState) (fuel : Nat)
    (hSuffix : data.drop i.toNat = suffix) (hFuel : suffix.length < fuel) :
    runDecode data fuel i st = some (decodeSuffix suffix st) := by
  induction suffix generalizing i st fuel with
  | nil =>
      obtain ⟨fuel, rfl⟩ := Nat.exists_eq_add_one_of_ne_zero (Nat.ne_of_gt hFuel)
      have hEnd : ¬ i.toNat < data.length := by
        rw [List.drop_eq_nil_iff] at hSuffix
        omega
      simp [runDecode, hEnd, decodeSuffix]
  | cons c rest ih =>
      obtain ⟨fuel, rfl⟩ := Nat.exists_eq_add_one_of_ne_zero (Nat.ne_of_gt (Nat.zero_lt_of_lt hFuel))
      have hCount : data.length - i.toNat = rest.length + 1 := by
        simpa using congrArg List.length hSuffix
      have hRead : data.getD i.toNat 0 = c := by
        have h := congrArg List.head? hSuffix
        simp only [List.head?_drop, List.head?_cons] at h
        simp [List.getD_eq_getElem?_getD, h]
      have hNext : (i + 1).toNat = i.toNat + 1 := by
        rw [UInt32.toNat_add]
        simp only [UInt32.reduceToNat]
        omega
      have hRest : data.drop (i + 1).toNat = rest := by
        rw [hNext, ← List.drop_drop, hSuffix]
        rfl
      rw [runDecode, if_pos (by omega), hRead, hCount, decodeSuffix]
      cases decodeSymbol c (rest.length + 1) st with
      | none => rfl
      | some next => exact ih (i + 1) next fuel hRest (by simpa using hFuel)

/-- A decoder state given by the numbers in its registers. -/
def holding (stream : Bytes) (padding : UInt16) (count value : Nat) : DecodeState :=
  ⟨stream, padding, UInt16.ofNat count, UInt32.ofNat value⟩

private theorem toNat_ofNat (value : Nat) (h : value < 2 ^ 24) : (UInt32.ofNat value).toNat = value := by
  rw [UInt32.toNat_ofNat']
  omega

/-- A symbol is put into six free bits of the register. -/
private theorem toNat_filled {value next : Nat} (hNext : next < 64) (hDvd : 64 ∣ value)
    (hRoom : value + next < 2 ^ 24) :
    (UInt32.ofNat value ||| (reverseLookup (character next)).toUInt32).toNat = value + next := by
  have hValue := toNat_ofNat value (by omega)
  have hSymbol : (reverseLookup (character next)).toUInt32.toNat = next := by
    rw [UInt8.toNat_toUInt32, toNat_reverseLookup hNext]
  rw [toNat_fill 6 (by rw [hValue]; exact hDvd) (by rw [hSymbol]; exact hNext), hValue, hSymbol]

/-- A symbol is neither padding nor unknown. -/
private theorem character_known {value : Nat} (h : value < 64) :
    (character value == kPad) = false ∧ (reverseLookup (character value) == 0x40) = false := by
  refine ⟨by simpa using character_ne_pad h, ?_⟩
  have hValue := toNat_reverseLookup h
  simp only [beq_eq_false_iff_ne, ne_eq]
  intro hEq
  rw [hEq] at hValue
  simp at hValue
  omega

/-- One of the first three symbols of a quad is shifted into the register. -/
theorem decodeSymbol_fill (stream : Bytes) (padding : UInt16) {count value next : Nat}
    (remaining : Nat) (hNext : next < 64) (hCount : count < 3) (hDvd : 64 ∣ value)
    (hRoom : value + next < 2 ^ 18) :
    decodeSymbol (character next) remaining (holding stream padding count value) =
      some (holding stream padding (count + 1) ((value + next) * 64)) := by
  obtain ⟨hPad, hKnown⟩ := character_known hNext
  have hTally : (UInt16.ofNat count + 1 == 4) = false := by
    rcases (by omega : count = 0 ∨ count = 1 ∨ count = 2) with rfl | rfl | rfl <;> rfl
  have hFilled := toNat_filled hNext hDvd (by omega)
  have hRegister : (UInt32.ofNat value ||| (reverseLookup (character next)).toUInt32) <<<
      kSymbolSize.toUInt32 = UInt32.ofNat ((value + next) * 64) := by
    apply UInt32.toNat_inj.mp
    have hShift : (kSymbolSize.toUInt32).toNat = 6 := rfl
    rw [toNat_shiftLeft _ _ (by rw [hShift]; omega) (by rw [hFilled, hShift]; omega), hShift,
      hFilled, toNat_ofNat _ (by omega)]
    omega
  simp only [decodeSymbol, hPad, hKnown, holding, hTally, hRegister, Bool.false_eq_true, ↓reduceIte,
    UInt16.ofNat_add]
  rfl

/-- The fourth symbol writes the three bytes and clears the register. -/
theorem decodeSymbol_quad (stream : Bytes) (padding : UInt16) {value next : Nat} (remaining : Nat)
    (hNext : next < 64) (hDvd : 64 ∣ value) (hRoom : value + next < 2 ^ 24) :
    decodeSymbol (character next) remaining (holding stream padding 3 value) =
      some (holding (stream ++ [UInt8.ofNat ((value + next) / 65536),
        UInt8.ofNat ((value + next) / 256), UInt8.ofNat (value + next)]) padding 0 0) := by
  obtain ⟨hPad, hKnown⟩ := character_known hNext
  have hTally : (UInt16.ofNat 3 + 1 == 4) = true := rfl
  have hFilled := toNat_filled hNext hDvd hRoom
  have hMask (register : UInt32) : (register &&& kByte).toNat = register.toNat % 256 :=
    toNat_mask register _ 8 rfl
  have hTop : ((UInt32.ofNat value ||| (reverseLookup (character next)).toUInt32) >>> 16).toUInt8 =
      UInt8.ofNat ((value + next) / 65536) := by
    apply UInt8.toNat_inj.mp
    rw [UInt32.toNat_toUInt8, toNat_shiftRight _ _ (by decide), hFilled, UInt8.toNat_ofNat']
    rfl
  have hMiddle : (((UInt32.ofNat value ||| (reverseLookup (character next)).toUInt32) >>> 8) &&&
      kByte).toUInt8 = UInt8.ofNat ((value + next) / 256) := by
    apply UInt8.toNat_inj.mp
    rw [UInt32.toNat_toUInt8, hMask, toNat_shiftRight _ _ (by decide), hFilled, UInt8.toNat_ofNat']
    simp
  have hLow : ((UInt32.ofNat value ||| (reverseLookup (character next)).toUInt32) &&&
      kByte).toUInt8 = UInt8.ofNat (value + next) := by
    apply UInt8.toNat_inj.mp
    rw [UInt32.toNat_toUInt8, hMask, hFilled, UInt8.toNat_ofNat']
    simp
  simp only [decodeSymbol, hPad, hKnown, holding, hTally, hTop, hMiddle, hLow, Bool.false_eq_true,
    ↓reduceIte]
  rfl

/-- A whole encoded triple gives back its bytes. -/
theorem decodeSuffix_triple (stream : Bytes) (padding : UInt16) (b0 b1 b2 : UInt8) (rest : Bytes) :
    decodeSuffix (encodeTriple b0 b1 b2 ++ rest) (holding stream padding 0 0) =
      decodeSuffix rest (holding (stream ++ [b0, b1, b2]) padding 0 0) := by
  have h0 := b0.toNat_lt
  have h1 := b1.toNat_lt
  have h2 := b2.toNat_lt
  rw [encodeTriple_eq]
  simp only [List.cons_append, List.nil_append, decodeSuffix]
  rw [decodeSymbol_fill stream padding _ (by omega) (by omega) (by omega) (by omega)]
  dsimp only
  rw [decodeSymbol_fill stream padding _ (by omega) (by omega) (by omega) (by omega)]
  dsimp only
  rw [decodeSymbol_fill stream padding _ (by omega) (by omega) (by omega) (by omega)]
  dsimp only
  rw [decodeSymbol_quad stream padding _ (by omega) (by omega) (by omega)]
  have e : (((0 + b0.toNat / 4) * 64 + (b0.toNat % 4 * 16 + b1.toNat / 16)) * 64 +
      (b1.toNat % 16 * 4 + b2.toNat / 64)) * 64 + b2.toNat % 64 =
      b0.toNat * 65536 + b1.toNat * 256 + b2.toNat := by omega
  have e0 : UInt8.ofNat ((b0.toNat * 65536 + b1.toNat * 256 + b2.toNat) / 65536) = b0 := by
    apply UInt8.toNat_inj.mp
    rw [UInt8.toNat_ofNat']
    omega
  have e1 : UInt8.ofNat ((b0.toNat * 65536 + b1.toNat * 256 + b2.toNat) / 256) = b1 := by
    apply UInt8.toNat_inj.mp
    rw [UInt8.toNat_ofNat']
    omega
  have e2 : UInt8.ofNat (b0.toNat * 65536 + b1.toNat * 256 + b2.toNat) = b2 := by
    apply UInt8.toNat_inj.mp
    rw [UInt8.toNat_ofNat']
    omega
  rw [e, e0, e1, e2]

/-- A padding among the last two characters is counted. -/
private theorem decodeSymbol_pad (remaining : Nat) (st : DecodeState) (h : remaining ≤ 2) :
    decodeSymbol kPad remaining st = some { st with padding := st.padding + 1 } := by
  simp [decodeSymbol, h]

/-- Behind two paddings one octet is unloaded. -/
theorem unpadStream_two (stream : Bytes) {value : Nat} (h : value * 64 < 2 ^ 24) :
    unpadStream (holding stream 2 2 value) =
      some (stream ++ [UInt8.ofNat (value * 64 / 65536)]) := by
  have hShift : (unpadShift 2).toNat.toUInt32 = 6 := rfl
  have hCount : UInt16.toNat 2 + (UInt16.ofNat 2).toNat = 4 := rfl
  have hByte : ((UInt32.ofNat value <<< 6) >>> 16).toUInt8 = UInt8.ofNat (value * 64 / 65536) := by
    apply UInt8.toNat_inj.mp
    have hValue := toNat_ofNat value (by omega)
    rw [UInt32.toNat_toUInt8, toNat_shiftRight _ _ (by decide),
      toNat_shiftLeft _ _ (by decide) (by rw [hValue]; simp; omega), hValue, UInt8.toNat_ofNat']
    simp
  simp only [unpadStream, holding, hShift, hCount, hByte, ↓reduceIte]
  simp

/-- Behind one padding two octets are unloaded. -/
theorem unpadStream_one (stream : Bytes) {value : Nat} (h : value < 2 ^ 24) :
    unpadStream (holding stream 1 3 value) =
      some (stream ++ [UInt8.ofNat (value / 65536), UInt8.ofNat (value / 256)]) := by
  have hShift : UInt32.ofNat value <<< (unpadShift 1).toNat.toUInt32 = UInt32.ofNat value := by
    apply UInt32.toNat_inj.mp
    have hValue := toNat_ofNat _ h
    have hZero : ((unpadShift 1).toNat.toUInt32).toNat = 0 := rfl
    rw [toNat_shiftLeft _ _ (by rw [hZero]; omega) (by rw [hZero, hValue]; omega), hZero]
    simp
  have hCount : UInt16.toNat 1 + (UInt16.ofNat 3).toNat = 4 := rfl
  have hTop : (UInt32.ofNat value >>> 16).toUInt8 = UInt8.ofNat (value / 65536) := by
    apply UInt8.toNat_inj.mp
    rw [UInt32.toNat_toUInt8, toNat_shiftRight _ _ (by decide), toNat_ofNat _ h, UInt8.toNat_ofNat']
    simp
  have hNext : ((UInt32.ofNat value >>> 8) &&& kByte).toUInt8 = UInt8.ofNat (value / 256) := by
    apply UInt8.toNat_inj.mp
    rw [UInt32.toNat_toUInt8, toNat_mask _ _ 8 rfl, toNat_shiftRight _ _ (by decide), toNat_ofNat _ h,
      UInt8.toNat_ofNat']
    simp
  simp only [unpadStream, holding, hShift, hCount, hTop, hNext, ↓reduceIte]
  simp

/-- One byte left over: two symbols and two padding characters. -/
theorem decode_one (stream : Bytes) (b : UInt8) :
    ∃ st, decodeSuffix (padStream [b]) (holding stream 0 0 0) = (true, st) ∧
      unpadStream st = some (stream ++ [b]) := by
  have hb := b.toNat_lt
  refine ⟨holding stream 2 2 (((0 + b.toNat / 4) * 64 + b.toNat % 4 * 16) * 64), ?_, ?_⟩
  · rw [padStream_one]
    simp only [decodeSuffix]
    rw [decodeSymbol_fill stream 0 _ (by omega) (by omega) (by omega) (by omega)]
    dsimp only
    rw [decodeSymbol_fill stream 0 _ (by omega) (by omega) (by omega) (by omega)]
    simp only [List.length_nil, List.length_singleton]
    rw [decodeSymbol_pad _ _ (by omega)]
    dsimp only
    rw [decodeSymbol_pad _ _ (by omega)]
    rfl
  · have hByte : UInt8.ofNat (((0 + b.toNat / 4) * 64 + b.toNat % 4 * 16) * 64 * 64 / 65536) = b := by
      apply UInt8.toNat_inj.mp
      rw [UInt8.toNat_ofNat']
      omega
    rw [unpadStream_two stream (by omega), hByte]

/-- Two bytes left over: three symbols and one padding character. -/
theorem decode_two (stream : Bytes) (b0 b1 : UInt8) :
    ∃ st, decodeSuffix (padStream [b0, b1]) (holding stream 0 0 0) = (true, st) ∧
      unpadStream st = some (stream ++ [b0, b1]) := by
  have h0 := b0.toNat_lt
  have h1 := b1.toNat_lt
  refine ⟨holding stream 1 3 ((((0 + b0.toNat / 4) * 64 + (b0.toNat % 4 * 16 + b1.toNat / 16)) * 64 +
    b1.toNat % 16 * 4) * 64), ?_, ?_⟩
  · rw [padStream_two]
    simp only [decodeSuffix]
    rw [decodeSymbol_fill stream 0 _ (by omega) (by omega) (by omega) (by omega)]
    dsimp only
    rw [decodeSymbol_fill stream 0 _ (by omega) (by omega) (by omega) (by omega)]
    dsimp only
    rw [decodeSymbol_fill stream 0 _ (by omega) (by omega) (by omega) (by omega)]
    simp only [List.length_nil]
    rw [decodeSymbol_pad _ _ (by omega)]
    rfl
  · have e0 : UInt8.ofNat ((((0 + b0.toNat / 4) * 64 + (b0.toNat % 4 * 16 + b1.toNat / 16)) * 64 +
        b1.toNat % 16 * 4) * 64 / 65536) = b0 := by
      apply UInt8.toNat_inj.mp
      rw [UInt8.toNat_ofNat']
      omega
    have e1 : UInt8.ofNat ((((0 + b0.toNat / 4) * 64 + (b0.toNat % 4 * 16 + b1.toNat / 16)) * 64 +
        b1.toNat % 16 * 4) * 64 / 256) = b1 := by
      apply UInt8.toNat_inj.mp
      rw [UInt8.toNat_ofNat']
      omega
    rw [unpadStream_one stream (by omega), e0, e1]

/-- The decoder reads back everything the encoder writes, triple by triple. -/
theorem decodeSuffix_encoded (data stream : Bytes) :
    ∃ st, decodeSuffix (runEncode data ++ padStream data) (holding stream 0 0 0) = (true, st) ∧
      unpadStream st = some (stream ++ data) := by
  induction data using runEncode.induct generalizing stream with
  | case1 b0 b1 b2 rest ih =>
      obtain ⟨st, hRun, hUnpad⟩ := ih (stream ++ [b0, b1, b2])
      refine ⟨st, ?_, by simpa using hUnpad⟩
      rw [padStream_triple, runEncode, List.append_assoc, decodeSuffix_triple, hRun]
  | case2 data hShort =>
      match data, hShort with
      | [], _ => exact ⟨holding stream 0 0 0, rfl, by simp [unpadStream, holding]⟩
      | [b], _ => simpa [runEncode] using decode_one stream b
      | [b0, b1], _ => simpa [runEncode] using decode_two stream b0 b1
      | b0 :: b1 :: b2 :: rest, hShort => exact (hShort b0 b1 b2 rest rfl).elim

/-- Four characters for every three bytes begun. -/
theorem encoded_length (data : Bytes) :
    (runEncode data ++ padStream data).length = 4 * ((data.length + 2) / 3) := by
  induction data using runEncode.induct with
  | case1 b0 b1 b2 rest ih =>
      have hTriple : (encodeTriple b0 b1 b2).length = 4 := by rw [encodeTriple_eq]; rfl
      rw [List.length_append] at ih
      rw [padStream_triple, runEncode, List.append_assoc, List.length_append, List.length_append,
        hTriple, ih]
      simp only [List.length_cons]
      omega
  | case2 data hShort =>
      match data, hShort with
      | [], _ => rfl
      | [b], _ => simp [runEncode, padStream_one]
      | [b0, b1], _ => simp [runEncode, padStream_two]
      | b0 :: b1 :: b2 :: rest, hShort => exact (hShort b0 b1 b2 rest rfl).elim

/-- Every character of an encoded string is known to the decoder. -/
theorem encoded_known (data : Bytes) :
    ∀ c ∈ runEncode data ++ padStream data, c = kPad ∨ ∃ value < 64, c = character value := by
  induction data using runEncode.induct with
  | case1 b0 b1 b2 rest ih =>
      have h0 := b0.toNat_lt
      have h1 := b1.toNat_lt
      have h2 := b2.toNat_lt
      intro c hc
      rw [padStream_triple, runEncode, List.append_assoc, List.mem_append] at hc
      rcases hc with hc | hc
      · right
        rw [encodeTriple_eq] at hc
        simp only [List.mem_cons, List.not_mem_nil, or_false] at hc
        rcases hc with rfl | rfl | rfl | rfl
        all_goals exact ⟨_, by omega, rfl⟩
      · exact ih c hc
  | case2 data hShort =>
      match data, hShort with
      | [], _ => intro c hc; simp [runEncode, padStream, padCount] at hc
      | [b], _ =>
          have hb := b.toNat_lt
          intro c hc
          simp only [runEncode, padStream_one, List.nil_append, List.mem_cons, List.not_mem_nil,
            or_false] at hc
          rcases hc with rfl | rfl | rfl | rfl
          · exact .inr ⟨_, by omega, rfl⟩
          · exact .inr ⟨_, by omega, rfl⟩
          · exact .inl rfl
          · exact .inl rfl
      | [b0, b1], _ =>
          have h0 := b0.toNat_lt
          have h1 := b1.toNat_lt
          intro c hc
          simp only [runEncode, padStream_two, List.nil_append, List.mem_cons, List.not_mem_nil,
            or_false] at hc
          rcases hc with rfl | rfl | rfl | rfl
          · exact .inr ⟨_, by omega, rfl⟩
          · exact .inr ⟨_, by omega, rfl⟩
          · exact .inr ⟨_, by omega, rfl⟩
          · exact .inl rfl
      | b0 :: b1 :: b2 :: rest, hShort => exact (hShort b0 b1 b2 rest rfl).elim

/-- From `2 ^ 32` characters on the loop counter wraps before it reaches the
length, and the loop never ends. -/
theorem runDecode_diverges (data : Bytes) (hLength : 2 ^ 32 ≤ data.length)
    (hKnown : ∀ c ∈ data, c = kPad ∨ ∃ value < 64, c = character value)
    (fuel : Nat) (i : UInt32) (st : DecodeState) : runDecode data fuel i st = none := by
  induction fuel generalizing i st with
  | zero => rfl
  | succ fuel ih =>
      have hIndex : i.toNat < data.length := i.toNat_lt.trans_le hLength
      have hRead : data.getD i.toNat 0 ∈ data := by
        rw [List.getD_eq_getElem _ _ hIndex]
        exact List.getElem_mem hIndex
      rw [runDecode, if_pos hIndex]
      cases hNext : decodeSymbol (data.getD i.toNat 0) (data.length - i.toNat) st with
      | some next => exact ih (i + 1) next
      | none =>
          rcases hKnown _ hRead with hc | ⟨value, hValue, hc⟩
          · rw [hc] at hNext
            simp [decodeSymbol] at hNext
          · obtain ⟨hPad, hSymbol⟩ := character_known hValue
            rw [hc] at hNext
            simp only [decodeSymbol, hPad, hSymbol, Bool.false_eq_true, ↓reduceIte] at hNext
            split at hNext <;> cases hNext

/-! ### The round trip -/

/-- `encode` into an empty string succeeds, and `decode` of what it wrote into
another empty string returns, succeeds and gives the data back. -/
def RoundTrips (data : Bytes) : Prop :=
  (encode data (some [])).ok = true ∧
    ∃ encoded, (encode data (some [])).result = some encoded ∧
      ∃ fuel outcome, decode fuel encoded (some []) = some outcome ∧
        outcome.ok = true ∧ outcome.result = some data

/-- The encoding of a text that is not empty, with no prior contents. -/
private theorem encode_cons (b : UInt8) (rest : Bytes) :
    encode (b :: rest) (some []) =
      ⟨true, .success, some (runEncode (b :: rest) ++ padStream (b :: rest))⟩ := by
  simp [encode]

/-- Up to 3 * 2^30 - 3 octets the decoder gives back what was encoded. -/
theorem roundTrips_of_short (data : Bytes) (h : data.length ≤ 3 * 2 ^ 30 - 3) :
    RoundTrips data := by
  cases data with
  | nil => exact ⟨rfl, [], rfl, 0, _, rfl, rfl, rfl⟩
  | cons b rest =>
      have hLength := encoded_length (b :: rest)
      have hPositive : 0 < (b :: rest).length := by simp
      obtain ⟨st, hRun, hUnpad⟩ := decodeSuffix_encoded (b :: rest) []
      rw [RoundTrips, encode_cons]
      generalize runEncode (b :: rest) ++ padStream (b :: rest) = encoded at hLength hRun
      have hLoop := runDecode_eq_decodeSuffix encoded (by omega) encoded 0 ⟨[], 0, 0, 0⟩
        (encoded.length + 1) (by simp) (by omega)
      rw [show (⟨[], 0, 0, 0⟩ : DecodeState) = holding [] 0 0 0 from rfl, hRun] at hLoop
      refine ⟨rfl, encoded, rfl, encoded.length + 1, ⟨true, .success, some (b :: rest)⟩, ?_, rfl, rfl⟩
      rw [decode, if_neg (by omega), show (⟨[], 0, 0, 0⟩ : DecodeState) = holding [] 0 0 0 from rfl,
        hLoop]
      simp [hUnpad]

/-- Beyond 3 * 2^30 - 3 octets the encoded text is longer than the counter of the decoder can
tell. -/
theorem not_roundTrips_of_long (data : Bytes) (h : 3 * 2 ^ 30 - 3 < data.length) :
    ¬ RoundTrips data := by
  rintro ⟨_, encoded, hEncode, fuel, outcome, hDecode, _⟩
  cases data with
  | nil => simp at h
  | cons b rest =>
      rw [encode_cons] at hEncode
      cases hEncode
      have hLength := encoded_length (b :: rest)
      rw [decode, if_neg (by omega), runDecode_diverges _ (by omega) (encoded_known (b :: rest))] at hDecode
      cases hDecode

/-- The exact domain of the round trip. The decoder compares a 32-bit counter
with the length of its input, and the input is four thirds of the data. -/
theorem roundTrips_iff (data : Bytes) : RoundTrips data ↔ data.length ≤ 3 * 2 ^ 30 - 3 := by
  constructor
  · intro h
    by_contra hLong
    exact not_roundTrips_of_long data (by omega) h
  · exact roundTrips_of_short data

/-- `2 ^ 32 - 1` zero bytes are encoded, but decoding them never returns. -/
theorem zeros_not_roundTrips :
    (List.replicate (2 ^ 32 - 1) (0 : UInt8)).length < 2 ^ 32 ∧
      ¬ RoundTrips (List.replicate (2 ^ 32 - 1) 0) := by
  refine ⟨by rw [List.length_replicate]; omega, not_roundTrips_of_long _ ?_⟩
  rw [List.length_replicate]
  omega

end ImpactSockets.Base64
