import ImpactSockets.Rfc.Uri.Reencoding

/-! When percent-decoding keeps every byte of a text in its place. Formatted
input passes over white space, also where it stands inside a triplet. -/
namespace ImpactSockets.Uri

open Abnf AbnfOps Ascii
open scoped Computability

/-- What percent-decoding is to do: it accepts the texts in which every "%"
starts a triplet, brings these to normal form, and leaves the others alone. -/
structure DecodesExactly (s : Bytes) : Prop where
  accepted : ∀ errno, (percentDecode s false errno).ok = true ↔ s ∈ Grammar.encodedText fun c => c != percent
  normal : ∀ errno, (percentDecode s false errno).ok = true → (percentDecode s false errno).str = percentNormal id s
  unchanged : ∀ errno, (percentDecode s false errno).ok = false → (percentDecode s false errno).str = s

theorem decodeLoop_isSome_iff (s : Bytes) : (decodeLoop false s .plain).isSome = true ↔ Whole s := by
  rw [Whole, mem_encodedText_iff (by decide) hexdig_ne_percent false, and_iff_right]
  intro c _
  by_cases hc : c = percent
  · exact .inr hc
  · exact .inl (bne_iff_ne.mpr hc)

/-- The decoder accepts by what formatted input yields. -/
theorem percentDecode_ok_iff (s : Bytes) (errno : Imperr) :
    (percentDecode s false errno).ok = true ↔ Whole (visible s) := by
  rw [percentDecode_ok, decodeLoop_isSome_iff]

theorem percentDecode_refused {s : Bytes} (h : ¬Whole (visible s)) (errno : Imperr) :
    (percentDecode s false errno).str = s := by
  rw [← decodeLoop_isSome_iff, Option.not_isSome_iff_eq_none] at h
  unfold percentDecode
  split_ifs
  · rfl
  · change decodeLoop false (s.filter _) .plain = none at h
    rw [h]

theorem percentDecode_visible {s : Bytes} (h : Whole (visible s)) (errno : Imperr) :
    (percentDecode s false errno).str = percentNormal id (visible s) :=
  percentDecode_str (decodeLoop_eq_percentNormal (by decide) h) errno

/-! ### White space -/

theorem visible_cons_triplet {high low : UInt8} (hHigh : hexdig high = true) (hLow : hexdig low = true) (rest : Bytes) :
    visible (percent :: high :: low :: rest) = percent :: high :: low :: visible rest := by
  have hPercent : isspace percent = false := by decide
  simp [visible, hexdig_not_space _ hHigh, hexdig_not_space _ hLow, hPercent]

/-- Leaving out white space splits no triplet. -/
theorem Whole.visible {s : Bytes} (h : Whole s) : Whole (visible s) := by
  refine @encodedText_induction _ (fun s => Whole (Uri.visible s)) (Language.nil_mem_kstar _) ?_ ?_ s h
  · intro c rest hc ih
    by_cases hSpace : isspace c = true
    · rwa [Uri.visible, List.filter_cons_of_neg (by simp [hSpace])]
    · rw [Uri.visible, List.filter_cons_of_pos (by simp [hSpace])]
      exact cons_mem_encodedText hc ih
  · intro high low rest hHigh hLow ih
    rw [visible_cons_triplet hHigh hLow]
    exact triplet_mem_encodedText hHigh hLow ih

/-- White space that is not left out makes the normal form longer. -/
theorem length_percentNormal {s : Bytes} (h : Whole s) :
    (percentNormal id (visible s)).length + s.countP isspace = (percentNormal id s).length := by
  refine @encodedText_induction _ (fun s =>
    (percentNormal id (visible s)).length + s.countP isspace = (percentNormal id s).length) rfl ?_ ?_ s h
  · intro c rest hc ih
    have hNe : c ≠ percent := bne_iff_ne.mp hc
    rw [percentNormal_plain hNe, List.length_cons, List.countP_cons]
    by_cases hSpace : isspace c = true
    · rw [visible, List.filter_cons_of_neg (by simp [hSpace]), if_pos hSpace]
      rw [visible] at ih
      omega
    · rw [visible, List.filter_cons_of_pos (by simp [hSpace]), if_neg hSpace, percentNormal_plain hNe, List.length_cons]
      rw [visible] at ih
      omega
  · intro high low rest hHigh hLow ih
    have hCount : (percent :: high :: low :: rest).countP isspace = rest.countP isspace := by
      have hPercent : isspace percent = false := by decide
      simp [hexdig_not_space _ hHigh, hexdig_not_space _ hLow, hPercent]
    rw [visible_cons_triplet hHigh hLow, percentNormal_triplet, percentNormal_triplet, List.length_append,
      List.length_append, hCount]
    omega

theorem decodesExactly_of_no_space {s : Bytes} (h : ∀ c ∈ s, isspace c = false) : DecodesExactly s := by
  have hSame := visible_of_no_space h
  refine ⟨fun errno => ?_, fun errno hOk => ?_, fun errno hOk => ?_⟩
  · rw [percentDecode_ok_iff, hSame]
    rfl
  · rw [percentDecode_ok_iff] at hOk
    rw [percentDecode_visible hOk, hSame]
  · rw [← Bool.not_eq_true, percentDecode_ok_iff] at hOk
    exact percentDecode_refused hOk errno

theorem decodesExactly_of_refused {s : Bytes} (h : ¬Whole (visible s)) : DecodesExactly s := by
  have hOk (errno : Imperr) : ¬(percentDecode s false errno).ok = true := by
    rwa [percentDecode_ok_iff]
  exact ⟨fun errno => iff_of_false (hOk errno) fun hWhole => h (Whole.visible hWhole),
    fun errno hTrue => absurd hTrue (hOk errno), fun errno _ => percentDecode_refused h errno⟩

/-- Decoding is exact unless there is white space, and the text would be well
formed without it. -/
theorem decodesExactly_iff (s : Bytes) :
    DecodesExactly s ↔ (∀ c ∈ s, isspace c = false) ∨ ¬Whole (visible s) := by
  constructor
  · intro h
    by_contra hNot
    simp only [not_or, not_not] at hNot
    obtain ⟨hSpace, hVisible⟩ := hNot
    have hOk := (percentDecode_ok_iff s .success).mpr hVisible
    have hWhole := (h.accepted .success).mp hOk
    have hNormal := h.normal .success hOk
    rw [percentDecode_visible hVisible] at hNormal
    have hLength := length_percentNormal hWhole
    rw [hNormal] at hLength
    have hZero : s.countP isspace = 0 := by omega
    rw [List.countP_eq_zero] at hZero
    exact hSpace fun c hc => by simpa using hZero c hc
  · rintro (h | h)
    · exact decodesExactly_of_no_space h
    · exact decodesExactly_of_refused h

/-- The blank is dropped from "a b", and "%4 1" is taken for a triplet. -/
theorem blank_dropped :
    percentDecode [0x61, 0x20, 0x62] false .success = ⟨true, [0x61, 0x62], .success⟩ ∧
      percentDecode [percent, 0x34, 0x20, 0x31] false .success = ⟨true, [0x41], .success⟩ ∧
      ¬DecodesExactly [0x61, 0x20, 0x62] :=
  ⟨by decide, by decide, fun h => absurd (h.normal .success (by decide)) (by decide)⟩

end ImpactSockets.Uri
