import ImpactSockets.Rfc.Utf8RoundTrip
import Mathlib.Algebra.Order.BigOperators.Group.List
import Mathlib.Algebra.Order.Ring.Nat

/-! The UTF-8 encoder of whole strings, with its sizes in the 64 bits of `size_t`
and the units promoted as their types are. -/
namespace ImpactSockets.Utf8

/-! ### The overloads -/

/-- A `std::basic_string`, which no array of more than half of the address space
can hold. A unit has `width` bytes. -/
structure BasicString (unit : Type) (width : Nat) where
  units : List unit
  fits : units.length * width < 2 ^ 63

namespace Sized

/-- `static_cast<size_t>(-1)`. -/
def noSize : UInt64 := 0 - 1

/-- `_S_estimate_buf_size`. -/
def estimateBufSize (symbol : UInt32) : UInt64 :=
  if symbol ≤ 0x7F then 1
  else if symbol ≤ 0x7FF then 2
  else if symbol ≤ 0xFFFF then
    if 0xD800 ≤ symbol && symbol ≤ 0xDFFF then noSize else 3
  else if symbol ≤ 0x10FFFF then 4
  else noSize

/-- The first loop of `SERIALIZE_STRING_CODE_SNIPPET`, from the given size on. -/
def sizePass (mask : UInt32) : List UInt32 → UInt64 → UInt64
  | [], size => size
  | c :: rest, size =>
      let test := estimateBufSize (mask &&& c)
      if test == noSize then test else sizePass mask rest (size + test)

/-- `SERIALIZE_STRING_CODE_SNIPPET`, on promoted units. -/
def serializeString (mask : UInt32) (input : List UInt32) (result : Option Bytes) : Outcome UInt8 :=
  let size := sizePass mask input 0
  if size == noSize then ⟨false, .utf8Badsym, result⟩
  else ⟨true, .success, result.map (· ++ input.flatMap fun symbol => encode (mask &&& symbol))⟩

/-- A `char` is signed, and its sign is extended before it is masked. -/
def promoteChar (c : UInt8) : UInt32 := c.toInt8.toInt32.toUInt32

/-- `serialize` of a `std::string`. -/
def serializeBytes (input : BasicString UInt8 1) (result : Option Bytes) : Outcome UInt8 :=
  serializeString 0xFF (input.units.map promoteChar) result

/-- `serialize` of a `std::u16string`. -/
def serializeU16 (input : BasicString UInt16 2) (result : Option Bytes) : Outcome UInt8 :=
  serializeString 0xFFFF (input.units.map UInt16.toUInt32) result

/-- `serialize` of a `std::u32string`. -/
def serialize (input : BasicString UInt32 4) (result : Option Bytes) : Outcome UInt8 :=
  serializeString 0xFFFFFFFF input.units result

end Sized

/-! ### One symbol -/

/-- Exactly the scalar values can be serialized. -/
theorem serializeSymbol_ok_iff (symbol : UInt32) (result : Option Bytes) :
    (serializeSymbol symbol result).ok = true ↔ Scalar symbol := by
  unfold serializeSymbol Scalar
  split_ifs with h
  · simp only [Bool.or_eq_true, Bool.and_eq_true, decide_eq_true_eq] at h
    refine iff_of_false (by simp) fun hScalar => ?_
    rcases h with hLarge | hSurrogate
    · exact absurd hScalar.1 (UInt32.not_le.mpr hLarge)
    · exact hScalar.2 hSurrogate
  · simp only [Bool.or_eq_true, Bool.and_eq_true, decide_eq_true_eq, not_or] at h
    exact iff_of_true rfl ⟨UInt32.not_lt.mp h.1, h.2⟩

/-- A scalar value is appended as it is encoded. -/
theorem serializeSymbol_of_scalar {symbol : UInt32} (h : Scalar symbol) (result : Option Bytes) :
    serializeSymbol symbol result = ⟨true, .success, result.map (· ++ encode symbol)⟩ := by
  have hOk := (serializeSymbol_ok_iff symbol result).mpr h
  unfold serializeSymbol at hOk ⊢
  split_ifs at hOk ⊢
  rfl

/-- The encoding that the overload for one symbol gives. -/
def encoding (symbol : UInt32) : Bytes := ((serializeSymbol symbol (some [])).result).getD []

theorem encoding_of_scalar {symbol : UInt32} (h : Scalar symbol) : encoding symbol = encode symbol := by
  rw [encoding, serializeSymbol_of_scalar h]
  rfl

/-- The length of an encoding. -/
theorem length_encode (symbol : UInt32) : (encode symbol).length =
    if symbol ≤ 0x7F then 1 else if symbol ≤ 0x7FF then 2 else if symbol ≤ 0xFFFF then 3 else 4 := by
  unfold encode
  split_ifs <;> rfl

/-- The sizing function accepts what the overload for one symbol accepts, with the
size that the encoder needs. -/
theorem estimateBufSize_scalar {symbol : UInt32} (h : Scalar symbol) :
    (Sized.estimateBufSize symbol).toNat = (encode symbol).length := by
  have hNotSurrogate : ¬(decide (0xD800 ≤ symbol) && decide (symbol ≤ 0xDFFF)) = true := by
    simpa using h.2
  rw [Sized.estimateBufSize, length_encode, if_neg hNotSurrogate, if_pos h.1]
  split_ifs <;> rfl

theorem estimateBufSize_eq_none {symbol : UInt32} (h : ¬Scalar symbol) : estimateBufSize symbol = none := by
  have hCases : 0x10FFFF < symbol.toNat ∨ (0xD800 ≤ symbol.toNat ∧ symbol.toNat ≤ 0xDFFF) := by
    simp only [Scalar, UInt32.le_iff_toNat_le, UInt32.reduceToNat] at h
    omega
  simp only [estimateBufSize, Bool.and_eq_true, decide_eq_true_eq, UInt32.le_iff_toNat_le, UInt32.reduceToNat]
  rcases hCases with hLarge | hSurrogate
  · rw [if_neg (by omega), if_neg (by omega), if_neg (by omega), if_neg (by omega)]
  · rw [if_neg (by omega), if_neg (by omega), if_pos (by omega), if_pos hSurrogate]

/-- The missing size is the sentinel. -/
theorem estimateBufSize_sized (symbol : UInt32) :
    Sized.estimateBufSize symbol = (estimateBufSize symbol).elim Sized.noSize UInt64.ofNat := by
  unfold Sized.estimateBufSize estimateBufSize
  split_ifs <;> rfl

/-- The -1 of the source, as a `size_t`. -/
theorem estimateBufSize_eq_noSize {symbol : UInt32} (h : ¬Scalar symbol) :
    Sized.estimateBufSize symbol = Sized.noSize := by
  rw [estimateBufSize_sized, estimateBufSize_eq_none h]
  rfl

/-- No size of a scalar value is taken for that -1. -/
theorem estimateBufSize_ne_noSize {symbol : UInt32} (h : Scalar symbol) :
    ¬(Sized.estimateBufSize symbol == Sized.noSize) = true := by
  rw [beq_iff_eq, ← UInt64.toNat_inj, estimateBufSize_scalar h, length_encode]
  have hNoSize : Sized.noSize.toNat = 2 ^ 64 - 1 := rfl
  split_ifs <;> omega

/-! ### The sizing pass -/

/-- The sum does not wrap while the encodings fit into 2^64 octets. -/
theorem sizePass_of_scalars {mask : UInt32} {input : List UInt32} (h : ∀ c ∈ input, Scalar (mask &&& c)) (size : UInt64)
    (hRoom : size.toNat + (input.map fun c => (encode (mask &&& c)).length).sum < 2 ^ 64) :
    (Sized.sizePass mask input size).toNat = size.toNat + (input.map fun c => (encode (mask &&& c)).length).sum := by
  induction input generalizing size with
  | nil => rfl
  | cons c rest ih =>
      rw [List.forall_mem_cons] at h
      rw [List.map_cons, List.sum_cons] at hRoom ⊢
      have hSize : (size + Sized.estimateBufSize (mask &&& c)).toNat = size.toNat + (encode (mask &&& c)).length := by
        rw [UInt64.toNat_add, estimateBufSize_scalar h.1, Nat.mod_eq_of_lt (by omega)]
      rw [Sized.sizePass, if_neg (estimateBufSize_ne_noSize h.1), ih h.2 _ (by omega)]
      omega

/-- The sentinel is not added to. -/
theorem sizePass_of_not_scalar {mask : UInt32} {input : List UInt32} (h : ∃ c ∈ input, ¬Scalar (mask &&& c))
    (size : UInt64) : Sized.sizePass mask input size = Sized.noSize := by
  induction input generalizing size with
  | nil => simp at h
  | cons c rest ih =>
      rw [Sized.sizePass]
      by_cases hScalar : Scalar (mask &&& c)
      · rw [List.exists_mem_cons_iff] at h
        rw [if_neg (estimateBufSize_ne_noSize hScalar), ih (h.resolve_left (not_not.mpr hScalar))]
      · rw [estimateBufSize_eq_noSize hScalar]
        rfl

/-! ### Every symbol or none -/

/-- What serializing a sequence of symbols is to do: every symbol is encoded on its
own, or nothing is appended. -/
def serializeEach (symbols : List UInt32) (result : Option Bytes) : Outcome UInt8 :=
  if symbols.all fun symbol => (serializeSymbol symbol (some [])).ok then
    ⟨true, .success, result.map (· ++ symbols.flatMap encoding)⟩
  else ⟨false, .utf8Badsym, result⟩

/-- All symbols can be serialized exactly if all are scalar values. -/
theorem all_ok_iff (symbols : List UInt32) :
    (symbols.all fun symbol => (serializeSymbol symbol (some [])).ok) = true ↔ ∀ symbol ∈ symbols, Scalar symbol := by
  simp only [List.all_eq_true, serializeSymbol_ok_iff]

theorem flatMap_encode {mask : UInt32} {input : List UInt32} (h : ∀ c ∈ input, Scalar (mask &&& c)) :
    (input.flatMap fun symbol => encode (mask &&& symbol)) = (input.map (mask &&& ·)).flatMap encoding := by
  rw [List.flatMap_map]
  exact List.flatMap_congr fun c hc => (encoding_of_scalar (h c hc)).symm

/-- The sum of the sizes does not run into the sentinel. -/
theorem serializeString_eq_each {mask : UInt32} {input : List UInt32}
    (hRoom : (input.map fun c => (encode (mask &&& c)).length).sum < 2 ^ 64 - 1) (result : Option Bytes) :
    Sized.serializeString mask input result = serializeEach (input.map (mask &&& ·)) result := by
  unfold Sized.serializeString serializeEach
  by_cases hAll : ∀ c ∈ input, Scalar (mask &&& c)
  · have hSize := sizePass_of_scalars hAll 0 (by simp; omega)
    have hNoSize : Sized.noSize.toNat = 2 ^ 64 - 1 := rfl
    have hFound : ¬(Sized.sizePass mask input 0 == Sized.noSize) = true := by
      rw [beq_iff_eq, ← UInt64.toNat_inj, hSize]
      simp only [UInt64.toNat_zero]
      omega
    rw [if_neg hFound, if_pos ((all_ok_iff _).mpr (List.forall_mem_map.mpr hAll)), flatMap_encode hAll]
  · have hBad : ∃ c ∈ input, ¬Scalar (mask &&& c) := by
      simpa using hAll
    rw [sizePass_of_not_scalar hBad, if_pos (beq_self_eq_true _),
      if_neg ((all_ok_iff _).not.mpr (fun h => hAll (List.forall_mem_map.mp h)))]

/-- The encodings of the units of a string fit into `size_t`, if none has more than
two bytes for each byte of its unit. -/
theorem sum_lt_of_fits {unit : Type} {width : Nat} (s : BasicString unit width) {size : unit → Nat}
    (hSize : ∀ u, size u ≤ 2 * width) : (s.units.map size).sum < 2 ^ 64 - 1 := by
  have hSum : (s.units.map size).sum ≤ (s.units.map size).length • (2 * width) :=
    List.sum_le_card_nsmul _ _ (List.forall_mem_map.mpr fun u _ => hSize u)
  have hFits := s.fits
  rw [List.length_map, Nat.nsmul_eq_mul, Nat.mul_left_comm] at hSum
  omega

set_option maxRecDepth 4000 in
/-- The mask undoes the sign extension. -/
theorem masked_promoteChar : ∀ c : UInt8, 0xFF &&& Sized.promoteChar c = c.toUInt32 := by
  decide

/-- The mask of a wide string keeps its units. -/
theorem masked_u16 (c : UInt16) : 0xFFFF &&& c.toUInt32 = c.toUInt32 := by
  have hLt := c.toNat_lt
  rw [UInt32.and_comm, ← UInt32.toNat_inj, Registers.toNat_mask c.toUInt32 0xFFFF 16 rfl, UInt16.toNat_toUInt32,
    Nat.mod_eq_of_lt hLt]

/-- Units of a narrower type have shorter encodings. -/
theorem length_encode_le (symbol : UInt32) : (encode symbol).length ≤ 4 ∧
    (symbol.toNat ≤ 0xFFFF → (encode symbol).length ≤ 3) ∧ (symbol.toNat ≤ 0x7FF → (encode symbol).length ≤ 2) := by
  obtain ⟨_, hTwo, hThree, _⟩ := le_bounds symbol
  rw [length_encode]
  simp only [hTwo, hThree]
  split_ifs <;> omega

/-- The overload for bytes serializes each of them. -/
theorem serializeBytes_eq_each (s : BasicString UInt8 1) (result : Option Bytes) :
    Sized.serializeBytes s result = serializeEach (s.units.map UInt8.toUInt32) result := by
  have hRoom := @sum_lt_of_fits _ _ s (fun c => (encode (0xFF &&& Sized.promoteChar c)).length) fun c => by
    have hLt := c.toNat_lt
    rw [masked_promoteChar]
    exact (length_encode_le _).2.2 (by rw [UInt8.toNat_toUInt32]; omega)
  rw [Sized.serializeBytes, serializeString_eq_each (by rwa [List.map_map]), List.map_map]
  exact congrArg (serializeEach · result) (List.map_congr_left fun c _ => masked_promoteChar c)

/-- The overload for 16-bit units serializes each of them. -/
theorem serializeU16_eq_each (s : BasicString UInt16 2) (result : Option Bytes) :
    Sized.serializeU16 s result = serializeEach (s.units.map UInt16.toUInt32) result := by
  have hRoom := @sum_lt_of_fits _ _ s (fun c => (encode (0xFFFF &&& c.toUInt32)).length) fun c => by
    have hLt := c.toNat_lt
    rw [masked_u16]
    exact Nat.le_succ_of_le ((length_encode_le _).2.1 (by rw [UInt16.toNat_toUInt32]; omega))
  rw [Sized.serializeU16, serializeString_eq_each (by rwa [List.map_map]), List.map_map]
  exact congrArg (serializeEach · result) (List.map_congr_left fun c _ => masked_u16 c)

/-- The overload for 32-bit units serializes each of them. -/
theorem serialize_eq_each (s : BasicString UInt32 4) (result : Option Bytes) :
    Sized.serialize s result = serializeEach s.units result := by
  have hRoom := @sum_lt_of_fits _ _ s (fun c => (encode (0xFFFFFFFF &&& c)).length) fun c =>
    (length_encode_le _).1.trans (by decide)
  rw [Sized.serialize, serializeString_eq_each hRoom]
  simp only [unmasked, List.map_id']

/-! ### Unbounded sizes -/

/-- One symbol without a size makes the pass fail. -/
theorem totalSize_eq_none {mask : UInt32} {input : List UInt32} (h : ∃ c ∈ input, ¬Scalar (mask &&& c)) (size : Nat) :
    totalSize mask input size = none := by
  induction input generalizing size with
  | nil => simp at h
  | cons c rest ih =>
      rw [totalSize]
      by_cases hScalar : Scalar (mask &&& c)
      · obtain ⟨test, hTest⟩ := estimateBufSize_of_scalar hScalar
        rw [List.exists_mem_cons_iff] at h
        rw [hTest]
        exact ih (h.resolve_left (not_not.mpr hScalar)) _
      · rw [estimateBufSize_eq_none hScalar]

/-- With sizes that are not bounded, and no sentinel, the outcome is the same. -/
theorem serializeString_unbounded (mask : UInt32) (input : List UInt32) (result : Option Bytes) :
    serializeString mask input result = serializeEach (input.map (mask &&& ·)) result := by
  unfold serializeString serializeEach
  by_cases hAll : ∀ c ∈ input, Scalar (mask &&& c)
  · obtain ⟨total, hTotal⟩ := totalSize_of_scalars hAll 0
    rw [hTotal, if_pos ((all_ok_iff _).mpr (List.forall_mem_map.mpr hAll)), flatMap_encode hAll]
  · have hBad : ∃ c ∈ input, ¬Scalar (mask &&& c) := by
      simpa using hAll
    rw [totalSize_eq_none hBad, if_neg ((all_ok_iff _).not.mpr (fun h => hAll (List.forall_mem_map.mp h)))]

/-- For a string that can exist, the sum with its wrap is the sum without. -/
theorem serialize_unbounded (s : BasicString UInt32 4) (result : Option Bytes) :
    Sized.serialize s result = serialize s.units result := by
  rw [serialize_eq_each, serialize, serializeString_unbounded]
  simp only [unmasked, List.map_id']

/-! ### The laws -/

/-- The string that a call leaves behind, if it returns true. -/
def Outcome.yielded {α : Type} (outcome : Outcome α) : Option (List α) :=
  if outcome.ok then outcome.result else none

/-- An overload for strings, against the one for a symbol. `widen` extends a unit
with zeros. -/
structure Lawful {unit : Type} {width : Nat} (widen : unit → UInt32)
    (call : BasicString unit width → Option Bytes → Outcome UInt8) : Prop where
  accepts : ∀ s r0, (call s (some r0)).ok = true ↔ ∀ u ∈ s.units, (serializeSymbol (widen u) (some [])).ok = true
  appends : ∀ s r0, (call s (some r0)).ok = true →
    (call s (some r0)).result = some (r0 ++ s.units.flatMap fun u => encoding (widen u))
  sized : ∀ s r0, (call s (some r0)).ok = true → ∃ bytes, (call s (some r0)).result = some (r0 ++ bytes) ∧
    bytes.length = (s.units.map fun u => (Sized.estimateBufSize (widen u)).toNat).sum
  untouched : ∀ s r0, (call s (some r0)).ok = false → (call s (some r0)).result = some r0
  homomorphic : ∀ x y z r0, z.units = x.units ++ y.units → (call z (some r0)).yielded =
    (call x (some r0)).yielded.bind fun r => (call y (some r)).yielded

/-- The call succeeds exactly on scalar values. -/
theorem serializeEach_ok_iff (symbols : List UInt32) (result : Option Bytes) :
    (serializeEach symbols result).ok = true ↔ ∀ symbol ∈ symbols, Scalar symbol := by
  rw [← all_ok_iff, serializeEach]
  split_ifs with h <;> simp [h]

/-- The call appends all the encodings, or yields nothing. -/
theorem serializeEach_yielded (symbols : List UInt32) (r0 : Bytes) :
    (serializeEach symbols (some r0)).yielded =
      if symbols.all fun symbol => (serializeSymbol symbol (some [])).ok then some (r0 ++ symbols.flatMap encoding)
      else none := by
  rw [serializeEach]
  split_ifs <;> rfl

/-- Two calls in sequence append what one call on both texts does. -/
theorem serializeEach_append (xs ys : List UInt32) (r0 : Bytes) :
    (serializeEach (xs ++ ys) (some r0)).yielded =
      (serializeEach xs (some r0)).yielded.bind fun r => (serializeEach ys (some r)).yielded := by
  simp only [serializeEach_yielded, List.all_append, Bool.and_eq_true, List.flatMap_append]
  by_cases hFirst : (xs.all fun symbol => (serializeSymbol symbol (some [])).ok) = true
  · simp only [hFirst, true_and, if_true, Option.bind_some, List.append_assoc]
  · simp only [hFirst, false_and, if_false, Bool.false_eq_true, Option.bind_none]

/-- An overload that serializes each of its units is lawful. -/
theorem lawful_of_each {unit : Type} {width : Nat} {widen : unit → UInt32}
    {call : BasicString unit width → Option Bytes → Outcome UInt8}
    (h : ∀ s result, call s result = serializeEach (s.units.map widen) result) : Lawful widen call := by
  have hResult (s : BasicString unit width) (r0 : Bytes) (hOk : (call s (some r0)).ok = true) :
      (call s (some r0)).result = some (r0 ++ s.units.flatMap fun u => encoding (widen u)) := by
    rw [h, serializeEach_ok_iff, ← all_ok_iff] at hOk
    rw [h, serializeEach, if_pos hOk, List.flatMap_map]
    rfl
  refine ⟨fun s r0 => ?_, hResult, fun s r0 hOk => ⟨_, hResult s r0 hOk, ?_⟩, fun s r0 hFailed => ?_, ?_⟩
  · rw [h, serializeEach_ok_iff, List.forall_mem_map]
    simp only [serializeSymbol_ok_iff]
  · rw [h, serializeEach_ok_iff, List.forall_mem_map] at hOk
    rw [List.length_flatMap]
    refine congrArg List.sum (List.map_congr_left fun u hu => ?_)
    rw [encoding_of_scalar (hOk u hu), estimateBufSize_scalar (hOk u hu)]
  · rw [h, serializeEach] at hFailed ⊢
    split_ifs at hFailed ⊢
    rfl
  · intro x y z r0 hUnits
    simp only [h, hUnits, List.map_append]
    exact serializeEach_append _ _ r0

/-- The overloads are lawful, and a narrow string may as well be widened first. -/
theorem serialize_overloads : Lawful UInt8.toUInt32 Sized.serializeBytes ∧ Lawful UInt16.toUInt32 Sized.serializeU16 ∧
    Lawful id Sized.serialize ∧
      ∀ (s : BasicString UInt8 1) (wide : BasicString UInt32 4), wide.units = s.units.map UInt8.toUInt32 →
        ∀ result, Sized.serialize wide result = Sized.serializeBytes s result := by
  refine ⟨lawful_of_each serializeBytes_eq_each, lawful_of_each serializeU16_eq_each, lawful_of_each ?_, ?_⟩
  · intro s result
    rw [serialize_eq_each, List.map_id]
  · intro s wide hUnits result
    rw [serialize_eq_each, serializeBytes_eq_each, hUnits]

/-- The same text as bytes and as 32-bit units. -/
theorem serialize_overloads_widened : Sized.serialize ⟨[0xE9, 0x21], by decide⟩ (some [0x3E]) =
    Sized.serializeBytes ⟨[0xE9, 0x21], by decide⟩ (some [0x3E]) :=
  serialize_overloads.2.2.2 ⟨[0xE9, 0x21], by decide⟩ ⟨[0xE9, 0x21], by decide⟩ rfl (some [0x3E])

end ImpactSockets.Utf8
