import ImpactSockets.Library.Registers
import ImpactSockets.Rfc.Utf8

/-! Code points are read back from their UTF-8 serialization. -/
namespace ImpactSockets.Utf8

open Registers

/-! ### Bytes -/

/-- A byte that continues a symbol. -/
def isTrailer (c : UInt8) : Bool := 0x80 ≤ c && c ≤ 0xBF

set_option maxRecDepth 4000 in
/-- The mask test of a trailer, over all 256 octets. -/
theorem isTrailer_iff : ∀ c : UInt8, (c &&& 0xC0 == 0x80) = isTrailer c := by
  decide

set_option maxRecDepth 4000 in
/-- The mask test of a single octet. -/
theorem ascii_iff : ∀ c : UInt8, (c &&& 0x80 == 0) = decide (c < 0x80) := by
  decide

set_option maxRecDepth 4000 in
/-- The headers, and the bits of the symbol that they hold. -/
theorem headerState_eq : ∀ c : UInt8, headerState c =
    if c < 0xC0 then none else if c < 0xE0 then some 1 else if c < 0xF0 then some 2
    else if c < 0xF8 then some 3 else none := by
  decide

set_option maxRecDepth 4000 in
/-- The header of a symbol says how many trailers follow. -/
theorem headerState_of_range : ∀ c : UInt8,
    (0xC0 ≤ c.toNat → c.toNat < 0xE0 → headerState c = some 1) ∧
      (0xE0 ≤ c.toNat → c.toNat < 0xF0 → headerState c = some 2) ∧
      (0xF0 ≤ c.toNat → c.toNat < 0xF8 → headerState c = some 3) := by
  decide

/-- The bits of the symbol in a header in front of `count` trailers. -/
def headerBits (count : Nat) (head : UInt8) : UInt32 := (0x3F >>> count.toUInt32) &&& head.toUInt32

set_option maxRecDepth 4000 in
/-- The bits that a header carries. -/
theorem toNat_headerBits : ∀ c : UInt8,
    (headerBits 1 c).toNat = c.toNat % 32 ∧ (headerBits 2 c).toNat = c.toNat % 16 ∧
      (headerBits 3 c).toNat = c.toNat % 8 := by
  decide

/-- A trailer carries the lowest six bits behind its mark. -/
theorem toNat_trailer (bits : UInt32) : (trailer bits).toNat = 0x80 + bits.toNat % 64 := by
  have hLow : (bits &&& 0x3F).toNat = bits.toNat % 64 := toNat_mask bits 0x3F 6 rfl
  have hFill : ((0x80 : UInt32) ||| (bits &&& 0x3F)).toNat = 0x80 + bits.toNat % 64 := by
    rw [toNat_fill 6 (by decide) (by rw [hLow]; omega), hLow]
    rfl
  rw [trailer, UInt32.toNat_toUInt8, hFill]
  omega

/-- A header is its mark and its bits, which do not overlap. -/
theorem toNat_header {mark bits : UInt32} (width : Nat) (hMark : 2 ^ width ∣ mark.toNat)
    (hBits : bits.toNat < 2 ^ width) (hRoom : mark.toNat + bits.toNat < 256) :
    (header mark bits).toNat = mark.toNat + bits.toNat := by
  rw [header, UInt32.toNat_toUInt8, toNat_fill width hMark hBits, Nat.mod_eq_of_lt hRoom]

/-- The symbol with the six bits of one more trailer. -/
def appendSix (symbol : UInt32) (c : UInt8) : UInt32 := (symbol <<< 6) ||| (0x3F &&& c.toUInt32)

/-- Six more bits behind a symbol that has room for them. -/
theorem toNat_appendSix {symbol : UInt32} (c : UInt8) (h : symbol.toNat < 2 ^ 26) :
    (appendSix symbol c).toNat = symbol.toNat * 64 + c.toNat % 64 := by
  have hLow : ((0x3F : UInt32) &&& c.toUInt32).toNat = c.toNat % 64 := by
    rw [UInt32.and_comm, toNat_mask _ 0x3F 6 rfl]
    rfl
  have hHigh : (symbol <<< 6).toNat = symbol.toNat * 64 :=
    toNat_shiftLeft symbol 6 (by decide) (by simp; omega)
  rw [appendSix, toNat_fill 6 ⟨symbol.toNat, by rw [hHigh, Nat.mul_comm]; rfl⟩ (by rw [hLow]; omega), hLow, hHigh]

/-! ### Symbols -/

/-- The loop reads the text as one symbol, and is then between symbols again. -/
def ReadsSymbol (text : Bytes) (symbol : UInt32) : Prop :=
  ∀ (rest : Bytes) (before : UInt32) (result : Option (List UInt32)),
    deserializeLoop (text ++ rest) ⟨0, before, result⟩ =
      deserializeLoop rest ⟨0, symbol, result.map (· ++ [symbol])⟩

/-- A single octet is read as itself. -/
theorem readsSymbol_ascii {c : UInt8} (h : c < 0x80) : ReadsSymbol [c] c.toUInt32 := by
  intro rest before result
  have hStep : deserializeStep ⟨0, before, result⟩ c =
      .ok ⟨0, c.toUInt32, result.map (· ++ [c.toUInt32])⟩ := by
    rw [deserializeStep, if_pos rfl, ascii_iff, if_pos (by simpa using h)]
    rfl
  rw [List.singleton_append, deserializeLoop, hStep]

/-- A trailer adds its bits, and the last one ends the symbol. -/
theorem deserializeStep_trailer {c : UInt8} (h : isTrailer c = true) (n : Nat) (symbol : UInt32)
    (result : Option (List UInt32)) :
    deserializeStep ⟨n + 1, symbol, result⟩ c =
      .ok (if n = 0 then ⟨0, appendSix symbol c, result.map (· ++ [appendSix symbol c])⟩
        else ⟨n, appendSix symbol c, result⟩) := by
  rw [deserializeStep, if_neg (Nat.succ_ne_zero n), isTrailer_iff, if_pos h]
  cases n <;> rfl

/-- The trailers that are still owed. -/
theorem deserializeLoop_trailers {trailers : Bytes} (h : ∀ c ∈ trailers, isTrailer c = true) (hNe : trailers ≠ [])
    (rest : Bytes) (symbol : UInt32) (result : Option (List UInt32)) :
    deserializeLoop (trailers ++ rest) ⟨trailers.length, symbol, result⟩ =
      deserializeLoop rest ⟨0, trailers.foldl appendSix symbol,
        result.map (· ++ [trailers.foldl appendSix symbol])⟩ := by
  induction trailers generalizing symbol with
  | nil => exact (hNe rfl).elim
  | cons c trailers ih =>
      rw [List.forall_mem_cons] at h
      rw [List.cons_append, deserializeLoop, List.length_cons, deserializeStep_trailer h.1, List.foldl_cons]
      by_cases hNil : trailers = []
      · subst hNil
        rfl
      · rw [if_neg (by simpa using hNil)]
        exact ih h.2 hNil (appendSix symbol c)

/-- The symbol that a header and its trailers hold. -/
def decoded (head : UInt8) (trailers : Bytes) : UInt32 :=
  trailers.foldl appendSix (headerBits trailers.length head)

/-- A header and its trailers are read as the symbol they encode, by induction on the trailers. -/
theorem readsSymbol_header {head : UInt8} {trailers : Bytes} (hHead : headerState head = some trailers.length)
    (h : ∀ c ∈ trailers, isTrailer c = true) : ReadsSymbol (head :: trailers) (decoded head trailers) := by
  intro rest before result
  have hNe : trailers ≠ [] := by
    rintro rfl
    rw [headerState_eq] at hHead
    split_ifs at hHead <;> simp at hHead
  have hHigh : ¬(head &&& 0x80 == 0) = true := by
    rw [ascii_iff, decide_eq_true_eq]
    intro hAscii
    rw [headerState_eq, if_pos (UInt8.lt_trans hAscii (by decide))] at hHead
    cases hHead
  have hStep : deserializeStep ⟨0, before, result⟩ head =
      .ok ⟨trailers.length, headerBits trailers.length head, result⟩ := by
    rw [deserializeStep, if_pos rfl, if_neg hHigh, hHead]
    rfl
  rw [List.cons_append, deserializeLoop, hStep]
  exact deserializeLoop_trailers h hNe rest _ result

/-! ### Values -/

theorem toNat_decoded_two (head t0 : UInt8) :
    (decoded head [t0]).toNat = head.toNat % 32 * 64 + t0.toNat % 64 := by
  have hBits := (toNat_headerBits head).1
  have hFirst := toNat_appendSix t0 (show (headerBits 1 head).toNat < 2 ^ 26 by omega)
  rw [hBits] at hFirst
  exact hFirst

theorem toNat_decoded_three (head t1 t0 : UInt8) :
    (decoded head [t1, t0]).toNat = head.toNat % 16 * 4096 + t1.toNat % 64 * 64 + t0.toNat % 64 := by
  have hBits := (toNat_headerBits head).2.1
  have hFirst := toNat_appendSix t1 (show (headerBits 2 head).toNat < 2 ^ 26 by omega)
  have hSecond := toNat_appendSix t0 (show (appendSix (headerBits 2 head) t1).toNat < 2 ^ 26 by omega)
  refine hSecond.trans ?_
  omega

theorem toNat_decoded_four (head t2 t1 t0 : UInt8) :
    (decoded head [t2, t1, t0]).toNat =
      head.toNat % 8 * 262144 + t2.toNat % 64 * 4096 + t1.toNat % 64 * 64 + t0.toNat % 64 := by
  have hBits := (toNat_headerBits head).2.2
  have hFirst := toNat_appendSix t2 (show (headerBits 3 head).toNat < 2 ^ 26 by omega)
  have hSecond := toNat_appendSix t1 (show (appendSix (headerBits 3 head) t2).toNat < 2 ^ 26 by omega)
  have hThird := toNat_appendSix t0
    (show (appendSix (appendSix (headerBits 3 head) t2) t1).toNat < 2 ^ 26 by omega)
  refine hThird.trans ?_
  omega

theorem isTrailer_trailer (bits : UInt32) : isTrailer (trailer bits) = true := by
  have hValue := toNat_trailer bits
  simp only [isTrailer, Bool.and_eq_true, decide_eq_true_eq, UInt8.le_iff_toNat_le, hValue]
  constructor
  · exact Nat.le_add_right ..
  · have hLt := Nat.mod_lt bits.toNat (show 0 < 64 by decide)
    exact Nat.le_of_lt_succ (by simpa using Nat.add_lt_add_left hLt 0x80)

theorem toNat_shifted (symbol : UInt32) :
    (symbol >>> 6).toNat = symbol.toNat / 64 ∧ (symbol >>> 12).toNat = symbol.toNat / 4096 ∧
      (symbol >>> 18).toNat = symbol.toNat / 262144 :=
  ⟨toNat_shiftRight symbol 6 (by decide), toNat_shiftRight symbol 12 (by decide),
    toNat_shiftRight symbol 18 (by decide)⟩

theorem encode_one {symbol : UInt32} (h : symbol.toNat ≤ 0x7F) : encode symbol = [symbol.toUInt8] :=
  if_pos (UInt32.le_iff_toNat_le.mpr h)

/-- The comparisons of the encoder, on numbers. -/
theorem le_bounds (symbol : UInt32) :
    (symbol ≤ 0x7F ↔ symbol.toNat ≤ 0x7F) ∧ (symbol ≤ 0x7FF ↔ symbol.toNat ≤ 0x7FF) ∧
      (symbol ≤ 0xFFFF ↔ symbol.toNat ≤ 0xFFFF) ∧ (symbol ≤ 0x10FFFF ↔ symbol.toNat ≤ 0x10FFFF) :=
  ⟨UInt32.le_iff_toNat_le, UInt32.le_iff_toNat_le, UInt32.le_iff_toNat_le, UInt32.le_iff_toNat_le⟩

/-- The form with two octets. -/
theorem encode_two {symbol : UInt32} (hLow : 0x7F < symbol.toNat) (h : symbol.toNat ≤ 0x7FF) :
    encode symbol = [header 0xC0 (symbol >>> 6), trailer symbol] := by
  obtain ⟨hOne, hTwo, _⟩ := le_bounds symbol
  rw [encode, if_neg (hOne.not.mpr (by omega)), if_pos (hTwo.mpr h)]
  rfl

/-- The form with three octets. -/
theorem encode_three {symbol : UInt32} (hLow : 0x7FF < symbol.toNat) (h : symbol.toNat ≤ 0xFFFF) :
    encode symbol = [header 0xE0 (symbol >>> 12), trailer (symbol >>> 6), trailer symbol] := by
  obtain ⟨hOne, hTwo, hThree, _⟩ := le_bounds symbol
  rw [encode, if_neg (hOne.not.mpr (by omega)), if_neg (hTwo.not.mpr (by omega)), if_pos (hThree.mpr h)]
  rfl

/-- The form with four octets. -/
theorem encode_four {symbol : UInt32} (hLow : 0xFFFF < symbol.toNat) :
    encode symbol = [header 0xF0 (symbol >>> 18), trailer (symbol >>> 12), trailer (symbol >>> 6), trailer symbol] := by
  obtain ⟨hOne, hTwo, hThree, _⟩ := le_bounds symbol
  rw [encode, if_neg (hOne.not.mpr (by omega)), if_neg (hTwo.not.mpr (by omega)),
    if_neg (hThree.not.mpr (by omega))]
  rfl

/-- The headers that the encoder writes. -/
theorem toNat_header_two {symbol : UInt32} (h : symbol.toNat ≤ 0x7FF) :
    (header 0xC0 (symbol >>> 6)).toNat = 0xC0 + symbol.toNat / 64 := by
  have hBits := (toNat_shifted symbol).1
  rw [toNat_header 5 (by decide) (by omega) (by rw [hBits]; simp; omega), hBits]
  rfl

/-- The header keeps the upper four of sixteen bits. -/
theorem toNat_header_three {symbol : UInt32} (h : symbol.toNat ≤ 0xFFFF) :
    (header 0xE0 (symbol >>> 12)).toNat = 0xE0 + symbol.toNat / 4096 := by
  have hBits := (toNat_shifted symbol).2.1
  rw [toNat_header 4 (by decide) (by omega) (by rw [hBits]; simp; omega), hBits]
  rfl

theorem toNat_header_four {symbol : UInt32} (h : symbol.toNat ≤ 0x10FFFF) :
    (header 0xF0 (symbol >>> 18)).toNat = 0xF0 + symbol.toNat / 262144 := by
  have hBits := (toNat_shifted symbol).2.2
  rw [toNat_header 3 (by decide) (by omega) (by rw [hBits]; simp; omega), hBits]
  rfl

/-- The loop reads what the encoder writes. -/
theorem readsSymbol_encode {symbol : UInt32} (h : symbol.toNat ≤ 0x10FFFF) : ReadsSymbol (encode symbol) symbol := by
  obtain ⟨hSix, hTwelve, hEighteen⟩ := toNat_shifted symbol
  have h0 := toNat_trailer symbol
  have h1 := toNat_trailer (symbol >>> 6)
  have h2 := toNat_trailer (symbol >>> 12)
  by_cases hOne : symbol.toNat ≤ 0x7F
  · have hByte : symbol.toUInt8.toUInt32 = symbol := by
      rw [← UInt32.toNat_inj, UInt8.toNat_toUInt32, UInt32.toNat_toUInt8]
      omega
    have hAscii : symbol.toUInt8 < 0x80 := by
      rw [UInt8.lt_iff_toNat_lt, UInt32.toNat_toUInt8]
      exact Nat.lt_of_le_of_lt (Nat.mod_le _ _) (Nat.lt_succ_of_le hOne)
    rw [encode_one hOne]
    have hReads := readsSymbol_ascii hAscii
    rwa [hByte] at hReads
  by_cases hTwo : symbol.toNat ≤ 0x7FF
  · have hHeader := toNat_header_two hTwo
    have hValue : decoded (header 0xC0 (symbol >>> 6)) [trailer symbol] = symbol := by
      rw [← UInt32.toNat_inj, toNat_decoded_two, hHeader, h0]
      omega
    have hReads := @readsSymbol_header (header 0xC0 (symbol >>> 6)) [trailer symbol]
      ((headerState_of_range _).1 (by omega) (by omega)) (by simp [isTrailer_trailer])
    rw [encode_two (by omega) hTwo]
    rwa [hValue] at hReads
  by_cases hThree : symbol.toNat ≤ 0xFFFF
  · have hHeader := toNat_header_three hThree
    have hValue : decoded (header 0xE0 (symbol >>> 12)) [trailer (symbol >>> 6), trailer symbol] = symbol := by
      rw [← UInt32.toNat_inj, toNat_decoded_three, hHeader, h0, h1, hSix]
      omega
    have hReads := @readsSymbol_header (header 0xE0 (symbol >>> 12)) [trailer (symbol >>> 6), trailer symbol]
      ((headerState_of_range _).2.1 (by omega) (by omega)) (by simp [isTrailer_trailer])
    rw [encode_three (by omega) hThree]
    rwa [hValue] at hReads
  · have hHeader := toNat_header_four h
    have hValue : decoded (header 0xF0 (symbol >>> 18))
        [trailer (symbol >>> 12), trailer (symbol >>> 6), trailer symbol] = symbol := by
      rw [← UInt32.toNat_inj, toNat_decoded_four, hHeader, h0, h1, h2, hSix, hTwelve]
      omega
    have hReads := @readsSymbol_header (header 0xF0 (symbol >>> 18))
      [trailer (symbol >>> 12), trailer (symbol >>> 6), trailer symbol]
      ((headerState_of_range _).2.2 (by omega) (by omega)) (by simp [isTrailer_trailer])
    rw [encode_four (by omega)]
    rwa [hValue] at hReads

/-! ### Sequences -/

/-- A Unicode scalar value. -/
def Scalar (symbol : UInt32) : Prop := symbol ≤ 0x10FFFF ∧ ¬(0xD800 ≤ symbol ∧ symbol ≤ 0xDFFF)

/-- A scalar value has a size. -/
theorem estimateBufSize_of_scalar {symbol : UInt32} (h : Scalar symbol) :
    ∃ size, estimateBufSize symbol = some size := by
  unfold estimateBufSize
  have hNotSurrogate : ¬(decide (0xD800 ≤ symbol) && decide (symbol ≤ 0xDFFF)) = true := by
    simpa using h.2
  rw [if_neg hNotSurrogate, if_pos h.1]
  split_ifs
  · exact ⟨1, rfl⟩
  · exact ⟨2, rfl⟩
  · exact ⟨3, rfl⟩
  · exact ⟨4, rfl⟩

theorem unmasked (symbol : UInt32) : 0xFFFFFFFF &&& symbol = symbol := by
  have hLt := symbol.toNat_lt
  rw [UInt32.and_comm, ← UInt32.toNat_inj, toNat_mask symbol 0xFFFFFFFF 32 rfl, Nat.mod_eq_of_lt hLt]

/-- The pass over the sizes succeeds on scalar values. -/
theorem totalSize_of_scalars {mask : UInt32} {w : List UInt32} (h : ∀ symbol ∈ w, Scalar (mask &&& symbol)) (size : Nat) :
    ∃ total, totalSize mask w size = some total := by
  induction w generalizing size with
  | nil => exact ⟨size, rfl⟩
  | cons symbol w ih =>
      rw [List.forall_mem_cons] at h
      obtain ⟨test, hTest⟩ := estimateBufSize_of_scalar h.1
      rw [totalSize, hTest]
      exact ih h.2 (size + test)

/-- Scalar values are serialized one behind the other. -/
theorem serialize_of_scalars {w : List UInt32} (h : ∀ symbol ∈ w, Scalar symbol) (result : Option Bytes) :
    serialize w result = ⟨true, .success, result.map (· ++ w.flatMap encode)⟩ := by
  obtain ⟨total, hTotal⟩ := @totalSize_of_scalars 0xFFFFFFFF w (by simpa only [unmasked] using h) 0
  simp only [serialize, serializeString, hTotal, unmasked]

/-- The loop reads one symbol after the other. -/
theorem deserializeLoop_encoded {w : List UInt32} (h : ∀ symbol ∈ w, Scalar symbol) (before : UInt32)
    (result : Option (List UInt32)) :
    deserializeLoop (w.flatMap encode) ⟨0, before, result⟩ = ⟨true, .success, result.map (· ++ w)⟩ := by
  induction w generalizing before result with
  | nil => simp [deserializeLoop]
  | cons symbol w ih =>
      rw [List.forall_mem_cons] at h
      have hBound := (le_bounds symbol).2.2.2.mp h.1.1
      rw [List.flatMap_cons, readsSymbol_encode hBound, ih h.2, Option.map_map]
      simp [Function.comp_def]

/-- Deserializing what code points were serialized to gives them back. -/
theorem deserialize_serialize {w : List UInt32} (h : ∀ symbol ∈ w, Scalar symbol) :
    ∃ s, serialize w (some []) = ⟨true, .success, some s⟩ ∧
      deserialize s (some []) = ⟨true, .success, some w⟩ := by
  refine ⟨w.flatMap encode, serialize_of_scalars h (some []), ?_⟩
  rw [deserialize, deserializeLoop_encoded h]
  rfl

/-- The last and the first symbol of each length, and those around the surrogates. -/
theorem deserialize_serialize_boundaries :
    ∃ s, serialize [0x7F, 0x80, 0x7FF, 0x800, 0xD7FF, 0xE000, 0xFFFF, 0x10000, 0x10FFFF] (some []) =
        ⟨true, .success, some s⟩ ∧
      deserialize s (some []) =
        ⟨true, .success, some [0x7F, 0x80, 0x7FF, 0x800, 0xD7FF, 0xE000, 0xFFFF, 0x10000, 0x10FFFF]⟩ :=
  deserialize_serialize (by simp [Scalar])

end ImpactSockets.Utf8
