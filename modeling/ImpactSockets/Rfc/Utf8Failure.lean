import ImpactSockets.Rfc.Utf8Strict

/-! What a call of the UTF-8 decoder leaves in the result when it fails. -/
namespace ImpactSockets.Utf8

/-! ### The result grows -/

/-- What the loop does to the result does not depend on what is in it. -/
theorem deserializeStep_appends (state : Nat) (symbol : UInt32) (c : UInt8) :
    (∃ errno, ∀ result, deserializeStep ⟨state, symbol, result⟩ c = .error errno) ∨
      ∃ next value symbols, ∀ result, deserializeStep ⟨state, symbol, result⟩ c =
        .ok ⟨next, value, result.map (· ++ symbols)⟩ := by
  cases state with
  | zero =>
      by_cases hAscii : c < 0x80
      · refine .inr ⟨0, c.toUInt32, [c.toUInt32], fun result => ?_⟩
        rw [deserializeStep, if_pos rfl, ascii_iff, if_pos (by simpa using hAscii)]
        rfl
      · have hHigh : ¬(c &&& 0x80 == 0) = true := by
          rwa [ascii_iff, decide_eq_true_eq]
        cases hState : headerState c with
        | none =>
            refine .inl ⟨.utf8Badhead, fun result => ?_⟩
            rw [deserializeStep, if_pos rfl, if_neg hHigh, hState]
        | some count =>
            refine .inr ⟨count, headerBits count c, [], fun result => ?_⟩
            rw [deserializeStep, if_pos rfl, if_neg hHigh, hState]
            simp [headerBits]
  | succ count =>
      by_cases hTrailer : isTrailer c = true
      · refine .inr ?_
        simp only [deserializeStep_trailer hTrailer]
        by_cases hLast : count = 0
        · exact ⟨0, appendSix symbol c, [appendSix symbol c], fun result => by rw [if_pos hLast]⟩
        · exact ⟨count, appendSix symbol c, [], fun result => by rw [if_neg hLast]; simp⟩
      · refine .inl ⟨.utf8Badtrail, fun result => ?_⟩
        rw [deserializeStep, if_neg (Nat.succ_ne_zero count), isTrailer_iff, if_neg hTrailer]

theorem deserializeLoop_appends (s : Bytes) (state : Nat) (symbol : UInt32) :
    ∃ ok errno symbols, ∀ result, deserializeLoop s ⟨state, symbol, result⟩ =
      ⟨ok, errno, result.map (· ++ symbols)⟩ := by
  induction s generalizing state symbol with
  | nil => exact ⟨true, .success, [], fun result => by simp [deserializeLoop]⟩
  | cons c rest ih =>
      rcases deserializeStep_appends state symbol c with ⟨errno, hStep⟩ | ⟨next, value, pushed, hStep⟩
      · exact ⟨false, errno, [], fun result => by simp [deserializeLoop, hStep]⟩
      · obtain ⟨ok, errno, symbols, hRest⟩ := ih next value
        refine ⟨ok, errno, pushed ++ symbols, fun result => ?_⟩
        rw [deserializeLoop, hStep]
        simp [hRest, Function.comp_def]

/-! ### The first symbol -/

/-- The text begins with a symbol that is not cut short. -/
inductive BeginsWithSymbol : Bytes → Prop where
  | ascii {c : UInt8} {rest : Bytes} (hc : c < 0x80) : BeginsWithSymbol (c :: rest)
  | header {head : UInt8} {trailers rest : Bytes} (hHead : headerState head = some trailers.length)
      (hTrailers : ∀ c ∈ trailers, isTrailer c = true) : BeginsWithSymbol (head :: trailers ++ rest)

/-- Such a symbol is in the result, whatever follows it. -/
theorem BeginsWithSymbol.pushed {s : Bytes} (h : BeginsWithSymbol s) :
    ∃ symbol symbols, ∀ result, (deserialize s result).result = result.map (· ++ symbol :: symbols) := by
  have hRead {text rest : Bytes} {symbol : UInt32} (hText : ReadsSymbol text symbol) :
      ∃ symbols, ∀ result, (deserialize (text ++ rest) result).result = result.map (· ++ symbol :: symbols) := by
    obtain ⟨ok, errno, symbols, hRest⟩ := deserializeLoop_appends rest 0 symbol
    refine ⟨symbols, fun result => ?_⟩
    rw [deserialize, hText, hRest]
    simp [Function.comp_def]
  cases h with
  | ascii hc => exact ⟨_, hRead (readsSymbol_ascii hc)⟩
  | header hHead hTrailers => exact ⟨_, hRead (readsSymbol_header hHead hTrailers)⟩

/-- Nothing is pushed while a trailer is missing. -/
theorem deserializeLoop_result_of_missing {count : Nat} {s : Bytes}
    (h : ¬∃ trailers rest, s = trailers ++ rest ∧ trailers.length = count + 1 ∧ ∀ c ∈ trailers, isTrailer c = true)
    (symbol : UInt32) (result : Option (List UInt32)) :
    (deserializeLoop s ⟨count + 1, symbol, result⟩).result = result := by
  induction s generalizing count symbol with
  | nil => rfl
  | cons c rest ih =>
      by_cases hTrailer : isTrailer c = true
      · rw [deserializeLoop, deserializeStep_trailer hTrailer]
        cases count with
        | zero => exact (h ⟨[c], rest, rfl, rfl, by simpa using hTrailer⟩).elim
        | succ count =>
            refine ih ?_ (appendSix symbol c)
            rintro ⟨trailers, rest, rfl, hLength, hTrailers⟩
            exact h ⟨c :: trailers, rest, rfl, congrArg (· + 1) hLength,
              List.forall_mem_cons.mpr ⟨hTrailer, hTrailers⟩⟩
      · rw [deserializeLoop, deserializeStep, if_neg (Nat.succ_ne_zero count), isTrailer_iff, if_neg hTrailer]

theorem deserialize_result_of_not_begins {s : Bytes} (h : ¬BeginsWithSymbol s) (result : Option (List UInt32)) :
    (deserialize s result).result = result := by
  rcases s with _ | ⟨c, rest⟩
  · rfl
  have hHigh : ¬(c &&& 0x80 == 0) = true := by
    rw [ascii_iff, decide_eq_true_eq]
    exact fun hAscii => h (.ascii hAscii)
  rw [deserialize, deserializeLoop, deserializeStep, if_pos rfl, if_neg hHigh]
  cases hState : headerState c with
  | none => rfl
  | some count =>
      obtain ⟨owed, rfl⟩ : ∃ owed, count = owed + 1 := by
        have hCases := header_cases hState
        exact ⟨count - 1, by omega⟩
      refine deserializeLoop_result_of_missing ?_ _ result
      rintro ⟨trailers, rest, rfl, hLength, hTrailers⟩
      exact h (.header (hState.trans (congrArg some hLength.symm)) hTrailers)

/-! ### Atomicity -/

/-- A call that fails leaves the result alone, and one that succeeds appends to it
what the text alone determines. -/
structure Untouched (s : Bytes) : Prop where
  failed : ∀ r0, (deserialize s (some r0)).ok = false → (deserialize s (some r0)).result = some r0
  appended : ∃ symbols, ∀ r0, (deserialize s (some r0)).ok = true →
    (deserialize s (some r0)).result = some (r0 ++ symbols)

theorem appended_always (s : Bytes) : ∃ symbols, ∀ r0, (deserialize s (some r0)).ok = true →
    (deserialize s (some r0)).result = some (r0 ++ symbols) := by
  obtain ⟨ok, errno, symbols, hLoop⟩ := deserializeLoop_appends s 0 0
  exact ⟨symbols, fun r0 _ => by rw [deserialize, hLoop]; rfl⟩

/-- The result is safe if the text is accepted, or if its first symbol is already
broken. -/
theorem untouched_iff (s : Bytes) : Untouched s ↔ InPlace 0 s ∨ ¬BeginsWithSymbol s := by
  constructor
  · intro h
    by_contra hNot
    obtain ⟨hPlace, hBegins⟩ := not_or.mp hNot
    obtain ⟨symbol, symbols, hPushed⟩ := (not_not.mp hBegins).pushed
    have hFailed : (deserialize s (some [])).ok = false :=
      Bool.eq_false_of_not_eq_true ((deserializeLoop_ok_iff s ⟨0, 0, some []⟩).not.mpr hPlace)
    have hUnchanged := h.failed [] hFailed
    rw [hPushed] at hUnchanged
    simp at hUnchanged
  · rintro (hPlace | hBegins)
    · refine ⟨fun r0 hFailed => ?_, appended_always s⟩
      have hOk : (deserialize s (some r0)).ok = true := (deserializeLoop_ok_iff s ⟨0, 0, some r0⟩).mpr hPlace
      rw [hOk] at hFailed
      cases hFailed
    · exact ⟨fun r0 _ => deserialize_result_of_not_begins hBegins (some r0), appended_always s⟩

/-- The letter in front of a byte that heads no symbol stays in the result. -/
theorem letterBeforeBadHeader_touched : ¬Untouched [0x41, 0xFF] := by
  intro h
  exact absurd (h.failed [] (by decide)) (by decide)

end ImpactSockets.Utf8
