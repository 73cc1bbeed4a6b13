import ImpactSockets.Rfc.Utf8Strict

/-! Texts that the UTF-8 decoder is given in chunks. -/
namespace ImpactSockets.Utf8

/-! ### Steps between symbols -/

/-- Between symbols, an octet below 0x80 is a symbol. -/
theorem deserializeStep_ascii {c : UInt8} (h : c < 0x80) (before : UInt32) (result : Option (List UInt32)) :
    deserializeStep ⟨0, before, result⟩ c = .ok ⟨0, c.toUInt32, result.map (· ++ [c.toUInt32])⟩ := by
  rw [deserializeStep, if_pos rfl, ascii_iff, if_pos (by simpa using h)]
  rfl

/-- Between symbols, a header begins one. -/
theorem deserializeStep_header {head : UInt8} {count : Nat} (h : headerState head = some count) (before : UInt32)
    (result : Option (List UInt32)) :
    deserializeStep ⟨0, before, result⟩ head = .ok ⟨count, headerBits count head, result⟩ := by
  have hHigh : ¬(head &&& 0x80 == 0) = true := by
    rw [ascii_iff, decide_eq_true_eq]
    intro hAscii
    rw [headerState_ascii hAscii] at h
    cases h
  rw [deserializeStep, if_pos rfl, if_neg hHigh, h]
  rfl

/-! ### The first part of a text -/

/-- The loop over the first part of a text, which may end it. -/
def deserializePart : Bytes → DecodeState → Except (Outcome UInt32) DecodeState
  | [], st => .ok st
  | c :: rest, st =>
      match deserializeStep st c with
      | .error errno => .error ⟨false, errno, st.result⟩
      | .ok next => deserializePart rest next

/-- The loop goes on with the second text in the state that the first one leaves. -/
theorem deserializeLoop_append (s t : Bytes) (st : DecodeState) :
    deserializeLoop (s ++ t) st =
      match deserializePart s st with
      | .error outcome => outcome
      | .ok next => deserializeLoop t next := by
  induction s generalizing st with
  | nil => rfl
  | cons c rest ih =>
      rw [List.cons_append, deserializeLoop, deserializePart]
      cases deserializeStep st c with
      | error errno => rfl
      | ok next => exact ih next

/-- Without a second part. -/
theorem deserializeLoop_eq (s : Bytes) (st : DecodeState) :
    deserializeLoop s st =
      match deserializePart s st with
      | .error outcome => outcome
      | .ok next => ⟨true, .success, next.result⟩ := by
  have hAppend := deserializeLoop_append s [] st
  rwa [List.append_nil] at hAppend

/-- A part that ends the loop ends it with a failure. -/
theorem deserializePart_error {s : Bytes} {st : DecodeState} {outcome : Outcome UInt32}
    (h : deserializePart s st = .error outcome) : outcome.ok = false := by
  induction s generalizing st with
  | nil => cases h
  | cons c rest ih =>
      rw [deserializePart] at h
      cases hStep : deserializeStep st c with
      | error errno =>
          rw [hStep] at h
          cases h
          rfl
      | ok next =>
          rw [hStep] at h
          exact ih h

/-- Between symbols, the last symbol is not read again. -/
theorem deserializeLoop_between (t : Bytes) (symbol before : UInt32) (result : Option (List UInt32)) :
    deserializeLoop t ⟨0, symbol, result⟩ = deserializeLoop t ⟨0, before, result⟩ := by
  cases t with
  | nil => rfl
  | cons c rest =>
      have hStep : deserializeStep ⟨0, symbol, result⟩ c = deserializeStep ⟨0, before, result⟩ c := rfl
      rw [deserializeLoop, deserializeLoop, hStep]

/-! ### The end of a text -/

/-- Every header is followed by as many bytes as it announces. -/
def Complete (s : Bytes) : Prop :=
  ∀ before head after count, s = before ++ head :: after → headerState head = some count → count ≤ after.length

theorem complete_nil : Complete [] := by
  intro before head after count hEq
  simp at hEq

/-- No symbol is cut off: as many octets follow a header as it asks for. -/
theorem complete_cons {c : UInt8} {rest : Bytes} :
    Complete (c :: rest) ↔ (∀ count, headerState c = some count → count ≤ rest.length) ∧ Complete rest := by
  constructor
  · intro h
    refine ⟨fun count => h [] c rest count rfl, ?_⟩
    rintro before head after count rfl
    exact h (c :: before) head after count rfl
  · rintro ⟨hFirst, hRest⟩ before head after count hEq
    rcases before with _ | ⟨d, before⟩
    · obtain ⟨rfl, rfl⟩ := List.cons.inj hEq
      exact hFirst count
    · exact hRest before head after count (List.cons.inj hEq).2

/-- An octet that is no header asks for none. -/
theorem complete_cons_low {c : UInt8} (h : headerState c = none) {rest : Bytes} :
    Complete (c :: rest) ↔ Complete rest := by
  rw [complete_cons]
  simp [h]

/-- Where headers and trailers are in place, the loop ends between symbols exactly if
no trailer is missing. -/
theorem deserializePart_of_inPlace {count : Nat} {s : Bytes} (h : InPlace count s) (symbol : UInt32)
    (result : Option (List UInt32)) :
    ∃ next, deserializePart s ⟨count, symbol, result⟩ = .ok next ∧
      (next.state = 0 ↔ count ≤ s.length ∧ Complete s) := by
  induction h generalizing symbol result with
  | nil count => exact ⟨_, rfl, by simp [complete_nil]⟩
  | @ascii c rest hc hRest ih =>
      obtain ⟨next, hNext, hEnd⟩ := ih c.toUInt32 (result.map (· ++ [c.toUInt32]))
      refine ⟨next, by rw [deserializePart, deserializeStep_ascii hc]; exact hNext, ?_⟩
      simpa [complete_cons_low (headerState_ascii hc)] using hEnd
  | @header c rest count hc hRest ih =>
      obtain ⟨next, hNext, hEnd⟩ := ih (headerBits count c) result
      refine ⟨next, by rw [deserializePart, deserializeStep_header hc]; exact hNext, hEnd.trans ?_⟩
      simp [complete_cons, hc]
  | @trailer c rest count hc hRest ih =>
      have hPlain : headerState c = none := (not_header c (low_of_isTrailer hc)).2.1
      have hGoal (st : DecodeState) (hStep : deserializeStep ⟨count + 1, symbol, result⟩ c = .ok st)
          (hState : st.state = count) :
          ∃ next, deserializePart (c :: rest) ⟨count + 1, symbol, result⟩ = .ok next ∧
            (next.state = 0 ↔ count + 1 ≤ (c :: rest).length ∧ Complete (c :: rest)) := by
        obtain ⟨state, value, pushed⟩ := st
        obtain rfl : state = count := hState
        obtain ⟨next, hNext, hEnd⟩ := ih value pushed
        refine ⟨next, by rw [deserializePart, hStep]; exact hNext, hEnd.trans ?_⟩
        simp [complete_cons_low hPlain]
      rw [deserializeStep_trailer hc] at hGoal
      exact hGoal _ rfl (by split_ifs with hLast <;> simp [hLast])

/-! ### Chunks -/

/-- A call, and one that goes on with its result unless the call failed. -/
def Outcome.andThen {α : Type} (first : Outcome α) (next : Option (List α) → Outcome α) : Outcome α :=
  if first.ok then next first.result else first

/-- The decoder is lawful at a cut after `s`, whatever follows, exactly if `s` is
rejected or does not end within a symbol. -/
theorem deserialize_append_iff (s : Bytes) :
    (∀ t result, deserialize (s ++ t) result = (deserialize s result).andThen (deserialize t)) ↔
      ((deserialize s none).ok = true → Complete s) := by
  have hAccepted (result : Option (List UInt32)) : (deserialize s result).ok = true ↔ InPlace 0 s :=
    deserializeLoop_ok_iff s ⟨0, 0, result⟩
  constructor
  · intro h hOk
    obtain ⟨⟨state, symbol, result⟩, hPart, hEnd⟩ := deserializePart_of_inPlace ((hAccepted none).mp hOk) 0 none
    have hCut := h [0x41] none
    rw [Outcome.andThen, if_pos hOk, deserialize, deserialize, deserialize, deserializeLoop_append,
      deserializeLoop_eq s, hPart] at hCut
    cases state with
    | zero => exact (hEnd.mp rfl).2
    | succ count =>
        -- the letter is a broken trailer for the whole text, and a symbol on its own
        have hBroken : (deserializeLoop [0x41] ⟨count + 1, symbol, result⟩).ok = false := by
          rw [deserializeLoop, deserializeStep, if_neg (Nat.succ_ne_zero count), if_neg (by decide)]
        have hRead : (deserializeLoop [0x41] ⟨0, 0, result⟩).ok = true := rfl
        rw [show deserializeLoop [0x41] ⟨count + 1, symbol, result⟩ = deserializeLoop [0x41] ⟨0, 0, result⟩ from hCut,
          hRead] at hBroken
        cases hBroken
  · intro hComplete t result
    rw [Outcome.andThen, deserialize, deserialize, deserialize, deserializeLoop_append, deserializeLoop_eq s]
    cases hPart : deserializePart s ⟨0, 0, result⟩ with
    | error outcome => simp only [deserializePart_error hPart, Bool.false_eq_true, if_false]
    | ok next =>
        have hOk : (deserialize s result).ok = true := by
          rw [deserialize, deserializeLoop_eq, hPart]
        have hPlace := (hAccepted result).mp hOk
        obtain ⟨_, hEq, hEnd⟩ := deserializePart_of_inPlace hPlace 0 result
        obtain ⟨state, symbol, pushed⟩ := next
        cases hPart.symm.trans hEq
        obtain rfl : state = 0 := hEnd.mpr ⟨Nat.zero_le _, hComplete ((hAccepted none).mpr hPlace)⟩
        exact deserializeLoop_between t symbol 0 pushed

/-- Chunk after chunk, up to one that is rejected. -/
def deserializeChunks : List Bytes → Option (List UInt32) → Outcome UInt32
  | [], result => ⟨true, .success, result⟩
  | s :: rest, result => (deserialize s result).andThen (deserializeChunks rest)

/-- No accepted chunk ends within a symbol. -/
theorem deserializeChunks_eq {chunks : List Bytes}
    (h : ∀ s ∈ chunks, (deserialize s none).ok = true → Complete s) (result : Option (List UInt32)) :
    deserializeChunks chunks result = deserialize chunks.flatten result := by
  induction chunks generalizing result with
  | nil => rfl
  | cons s rest ih =>
      rw [List.forall_mem_cons] at h
      rw [List.flatten_cons, (deserialize_append_iff s).mpr h.1 rest.flatten result, deserializeChunks]
      exact congrArg (deserialize s result).andThen (funext (ih h.2))

end ImpactSockets.Utf8
