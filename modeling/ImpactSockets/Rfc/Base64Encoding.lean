import ImpactSockets.Library.BitGroups
import ImpactSockets.Rfc.Base64RoundTrip

/-! What the codec writes through its result pointer: the encoder the groups of
six bits of the data, and both of them nothing when the data is empty. -/
namespace ImpactSockets.Base64

open BitGroups

/-- The symbols that the bits of `length` bytes fill, the last one with zeros. -/
def symbolCount (length : Nat) : Nat := (8 * length + 5) / 6

/-- RFC 4648: a symbol for each group of six bits, and padding to a whole quad. -/
def encoding (data : Bytes) : Bytes :=
  (List.range (symbolCount data.length)).map (fun i => character (group 6 data i)) ++
    List.replicate ((3 - data.length % 3) % 3) kPad

/-- Four characters for every three bytes begun. -/
theorem encoding_length (data : Bytes) : (encoding data).length = 4 * ((data.length + 2) / 3) := by
  rw [encoding, List.length_append, List.length_map, List.length_range, List.length_replicate, symbolCount]
  omega

/-! ### The groups of a triple -/

/-- The first group is the upper six bits of the first octet. -/
theorem group_zero (data : Bytes) : group 6 data 0 = (data.getD 0 0).toNat / 4 := by
  have hLt := (data.getD 0 0).toNat_lt
  have hBits := @number_byte data 0 0 6 (by decide)
  rw [group, hBits]
  omega

/-- The second group has the last bits of the first byte. -/
theorem group_one (data : Bytes) :
    group 6 data 1 = (data.getD 0 0).toNat % 4 * 16 + (data.getD 1 0).toNat / 16 := by
  have hLt := (data.getD 1 0).toNat_lt
  have hFirst := @number_byte data 0 6 2 (by decide)
  have hSecond := @number_byte data 1 0 4 (by decide)
  rw [group, number_add data 6 2 4, hFirst, hSecond]
  omega

/-- The third group is four bits of the second octet and two of the third. -/
theorem group_two (data : Bytes) :
    group 6 data 2 = (data.getD 1 0).toNat % 16 * 4 + (data.getD 2 0).toNat / 64 := by
  have hLt := (data.getD 2 0).toNat_lt
  have hFirst := @number_byte data 1 4 4 (by decide)
  have hSecond := @number_byte data 2 0 2 (by decide)
  rw [group, number_add data 12 4 2, hFirst, hSecond]
  omega

theorem group_three (data : Bytes) : group 6 data 3 = (data.getD 2 0).toNat % 64 := by
  have hBits := @number_byte data 2 2 6 (by decide)
  rw [group, hBits]
  omega

/-- A triple of bytes is encoded in four symbols of its own. -/
theorem encoding_triple (b0 b1 b2 : UInt8) (rest : Bytes) :
    encoding (b0 :: b1 :: b2 :: rest) = encodeTriple b0 b1 b2 ++ encoding rest := by
  have hCount : symbolCount (rest.length + 1 + 1 + 1) = 4 + symbolCount rest.length := by
    unfold symbolCount
    omega
  have hPad : (3 - (rest.length + 1 + 1 + 1) % 3) % 3 = (3 - rest.length % 3) % 3 := by omega
  have hBehind (i : Nat) : group 6 (b0 :: b1 :: b2 :: rest) (4 + i) = group 6 rest i :=
    @group_append 6 4 [b0, b1, b2] rfl rest i
  have hFour : List.range 4 = [0, 1, 2, 3] := rfl
  simp only [encoding, List.length_cons, hCount, hPad, List.range_add, List.map_append, List.map_map, Function.comp_def,
    hBehind, hFour, List.map_cons, List.map_nil, group_zero, group_one, group_two, group_three, encodeTriple_eq,
    List.getD_cons_zero, List.getD_cons_succ, List.append_assoc]

/-- The last quad of one octet, as the code writes it. -/
theorem encoding_one (b : UInt8) : encoding [b] = padStream [b] := by
  have hTwo : List.range (symbolCount 1) = [0, 1] := rfl
  simp [encoding, hTwo, group_zero, group_one, padStream_one, List.replicate]

/-- The last quad of two octets, as the code writes it. -/
theorem encoding_two (b0 b1 : UInt8) : encoding [b0, b1] = padStream [b0, b1] := by
  have hThree : List.range (symbolCount 2) = [0, 1, 2] := rfl
  simp [encoding, hThree, group_zero, group_one, group_two, padStream_two]

/-- The encoder writes the encoding of RFC 4648. -/
theorem encoded_eq_encoding (data : Bytes) : runEncode data ++ padStream data = encoding data := by
  induction data using runEncode.induct with
  | case1 b0 b1 b2 rest ih =>
      rw [padStream_triple, runEncode, List.append_assoc, ih, encoding_triple]
  | case2 data hShort =>
      rcases data with _ | ⟨b0, _ | ⟨b1, _ | ⟨b2, rest⟩⟩⟩
      · rfl
      · rw [encoding_one]
        simp [runEncode]
      · rw [encoding_two]
        simp [runEncode]
      · exact (hShort b0 b1 b2 rest rfl).elim

/-! ### The result pointer -/

/-- What a call that returns true leaves behind the result pointer: in two calls
the same, whatever was there before, and for the encoder the encoding. -/
structure Written (data : Bytes) : Prop where
  encoded : ∀ prior prior', (encode data (some prior)).ok = true → (encode data (some prior')).ok = true →
    (encode data (some prior)).result = (encode data (some prior')).result
  encoding : ∀ prior, (encode data (some prior)).ok = true →
    ∃ text, (encode data (some prior)).result = some text ∧ text = Base64.encoding data ∧
      text.length = 4 * ((data.length + 2) / 3)
  decoded : ∀ prior prior' fuel fuel' outcome outcome', decode fuel data (some prior) = some outcome →
    decode fuel' data (some prior') = some outcome' → outcome.ok = true → outcome'.ok = true →
    outcome.result = outcome'.result

/-- More iterations than the loop takes change nothing. -/
theorem runDecode_unique {data : Bytes} {fuel fuel' : Nat} {i : UInt32} {st : DecodeState}
    {first second : Bool × DecodeState} (hFirst : runDecode data fuel i st = some first)
    (hSecond : runDecode data fuel' i st = some second) : first = second := by
  induction fuel generalizing fuel' i st with
  | zero => cases hFirst
  | succ fuel ih =>
      cases fuel' with
      | zero => cases hSecond
      | succ fuel' =>
          rw [runDecode] at hFirst hSecond
          by_cases hEnd : i.toNat < data.length
          · rw [if_pos hEnd] at hFirst hSecond
            cases hNext : decodeSymbol (data.getD i.toNat 0) (data.length - i.toNat) st with
            | none =>
                rw [hNext] at hFirst hSecond
                exact Option.some.inj (hFirst.symm.trans hSecond)
            | some next =>
                rw [hNext] at hFirst hSecond
                exact ih hFirst hSecond
          · rw [if_neg hEnd] at hFirst hSecond
            exact Option.some.inj (hFirst.symm.trans hSecond)

/-- A decoder that returns true has written what it has decoded. -/
theorem decode_result {data : Bytes} (hNe : data ≠ []) {fuel : Nat} {prior : Bytes} {outcome : Outcome}
    (h : decode fuel data (some prior) = some outcome) (hOk : outcome.ok = true) :
    ∃ st, runDecode data fuel 0 ⟨[], 0, 0, 0⟩ = some (true, st) ∧ outcome.result = unpadStream st := by
  rw [decode, if_neg (by simpa using hNe)] at h
  cases hRun : runDecode data fuel 0 ⟨[], 0, 0, 0⟩ with
  | none =>
      rw [hRun] at h
      cases h
  | some last =>
      obtain ⟨ok, st⟩ := last
      rw [hRun] at h
      cases ok with
      | false =>
          cases h
          cases hOk
      | true =>
          cases hUnpad : unpadStream st with
          | none =>
              simp only [hUnpad, Option.some.injEq] at h
              subst h
              cases hOk
          | some stream =>
              simp only [hUnpad, Option.some.injEq] at h
              subst h
              exact ⟨st, rfl, hUnpad.symm⟩

/-- A text that is not empty is written in full. -/
theorem written_of_ne_nil {data : Bytes} (hNe : data ≠ []) : Written data := by
  have hLength : data.length ≠ 0 := by simpa using hNe
  constructor
  · intro prior prior' _ _
    rw [encode, if_neg hLength, encode, if_neg hLength]
    rfl
  · intro prior _
    refine ⟨Base64.encoding data, ?_, rfl, encoding_length data⟩
    rw [encode, if_neg hLength, ← encoded_eq_encoding]
    rfl
  · intro prior prior' fuel fuel' outcome outcome' hFirst hSecond hOk hOk'
    obtain ⟨st, hRun, hResult⟩ := decode_result hNe hFirst hOk
    obtain ⟨st', hRun', hResult'⟩ := decode_result hNe hSecond hOk'
    cases runDecode_unique hRun hRun'
    rw [hResult, hResult']

/-- The result is written unless there is nothing to encode or decode. -/
theorem written_iff (data : Bytes) : Written data ↔ data ≠ [] := by
  constructor
  · rintro h rfl
    have hSame := h.encoded [] [0x78] rfl rfl
    exact absurd hSame (by decide)
  · exact written_of_ne_nil

/-- Both calls return true for the empty string, and leave what they find. -/
theorem emptyData_not_written :
    encode [] (some [0x78]) = ⟨true, .success, some [0x78]⟩ ∧
      decode 1 [] (some [0x78]) = some ⟨true, .success, some [0x78]⟩ ∧ ¬Written [] :=
  ⟨by decide, by decide, fun h => absurd (h.encoded [] [0x78] rfl rfl) (by decide)⟩

end ImpactSockets.Base64
