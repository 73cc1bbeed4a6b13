import ImpactSockets.Sockets.SocketStream.Output

/-! The input side of a stream over a socket: the get area that `underflow`
fills, and the characters that are read from it. -/
namespace ImpactSockets.SocketStream

/-- What `impact::poll` returns, and the flags that it reports for the handle. -/
structure Poll where
  status : Int
  hangup : Bool
  readable : Bool
deriving DecidableEq, Repr

/-- What a poll and a `recv` do during a call of `underflow`. The latter may throw. -/
structure Outcome where
  poll : Poll
  recv : Option Bytes
deriving DecidableEq, Repr

/-- A stream with its get area, of which `available` is what is between `gptr()`
and `egptr()`. -/
structure InputStream (bufferSize : UInt32) extends Stream bufferSize where
  available : Bytes

/-- `_M_initialize`, which leaves the get area at its end. -/
def openInput (bufferSize : UInt32) : InputStream bufferSize :=
  { initialize_ bufferSize with available := [] }

/-- The conversion of a `char`, which is signed, to `int`. -/
def charToInt (c : UInt8) : Int := c.toInt8.toInt

/-- `std::char_traits<char>::to_int_type`, from 0 to 255. -/
def toIntType (c : UInt8) : Int := c.toNat

variable {bufferSize : UInt32}

/-- `underflow`: what it returns and the stream it leaves. `none` is a `recv`
that writes outside the array, or a get area that ends in front of it. -/
def underflow (outcome : Outcome) (s : InputStream bufferSize) : Option (Int × InputStream bufferSize) :=
  if ¬ s.handle then some (eof, s)
  else if s.hangup then some (eof, { s with badbit := true })
  else if outcome.poll.status = 0 then some (eof, s) -- timeout
  else if outcome.poll.hangup then some (eof, { s with hangup := true, badbit := true })
  else if outcome.poll.readable then
    match outcome.recv with
    | none => some (eof, s)
    | some chunk =>
        if allocated bufferSize < chunk.length then none
        else
          let bytesReceived := toInt chunk.length
          if bytesReceived = -1 then some (eof, s) -- taken for SOCKET_ERROR
          else if bytesReceived = 0 then some (eof, s)
          else if bytesReceived < 0 then none
          else some (charToInt (chunk.headD 0), { s with available := chunk })
  else some (eof, s)

/-- What a reader gets: the characters of the get area, and at its end what
`underflow` returns, which is the end of the stream or the next character. -/
def readAll : List Outcome → InputStream bufferSize → Option (List Int)
  | [], s => some (s.available.map toIntType)
  | outcome :: outcomes, s =>
      match underflow outcome { s with available := [] } with
      | none => none
      | some (value, next) =>
          if value = eof then some (s.available.map toIntType)
          else
            (readAll outcomes { next with available := next.available.tail }).map fun values =>
              s.available.map toIntType ++ value :: values

/-- The poll reports data without a hang-up, and `recv` returns some of it. -/
structure Receives (bufferSize : UInt32) (outcome : Outcome) (chunk : Bytes) : Prop where
  status : outcome.poll.status ≠ 0
  hangup : outcome.poll.hangup = false
  readable : outcome.poll.readable = true
  recv : outcome.recv = some chunk
  notEmpty : chunk ≠ []
  fits : chunk.length ≤ (streamBufferSize bufferSize).toNat

/-- `underflow` returns the first character of every chunk as a number from 0 to
255, and the reader gets the chunks one behind the other. -/
def Delivered (bufferSize : UInt32) (outcomes : List Outcome) (chunks : List Bytes) : Prop :=
  (∀ pair ∈ outcomes.zip chunks, ∃ next : InputStream bufferSize,
      underflow pair.1 (openInput bufferSize) = some (toIntType (pair.2.headD 0), next)) ∧
    readAll outcomes (openInput bufferSize) = some (chunks.flatten.map toIntType)

/-- The chunk fits into the array, its length is an `int`, and its first
character is ASCII. -/
def Deliverable (bufferSize : UInt32) (chunk : Bytes) : Prop :=
  chunk.length ≤ allocated bufferSize ∧ chunk.length < 2 ^ 31 ∧ ∀ c ∈ chunk.head?, c < 0x80

set_option maxRecDepth 4000 in
theorem charToInt_eq_iff : ∀ c : UInt8, charToInt c = toIntType c ↔ c < 0x80 := by
  decide

/-- What `underflow` does with a chunk. -/
theorem underflow_receives {outcome : Outcome} {chunk : Bytes} (h : Receives bufferSize outcome chunk)
    {s : InputStream bufferSize} (hOpen : Open s.toStream) :
    underflow outcome s =
      if allocated bufferSize < chunk.length then none
      else if chunk.length < 2 ^ 31 then some (charToInt (chunk.headD 0), { s with available := chunk })
      else if toInt chunk.length = -1 then some (eof, s) else none := by
  have hPositive := List.length_pos_iff.mpr h.notEmpty
  unfold underflow
  rw [if_neg (by simp [hOpen.1]), if_neg (by simp [hOpen.2]), if_neg h.status, if_neg (by simp [h.hangup]),
    if_pos h.readable, h.recv]
  dsimp only
  by_cases hArray : allocated bufferSize < chunk.length
  · rw [if_pos hArray, if_pos hArray]
  rw [if_neg hArray, if_neg hArray]
  by_cases hShort : chunk.length < 2 ^ 31
  · have hLength := toInt_of_lt hShort
    rw [if_pos hShort, if_neg (by omega), if_neg (by omega), if_neg (by omega)]
  · have hBound := Nat.lt_of_le_of_lt h.fits (UInt32.toNat_lt _)
    have hNegative := toInt_neg (Nat.not_lt.mp hShort) hBound
    rw [if_neg hShort, if_neg (show ¬toInt chunk.length = 0 by omega), if_pos hNegative]

/-- The first character is returned exactly for the deliverable chunks. -/
theorem underflow_returns_iff {outcome : Outcome} {chunk : Bytes} (h : Receives bufferSize outcome chunk)
    {s : InputStream bufferSize} (hOpen : Open s.toStream) :
    (∃ next, underflow outcome s = some (toIntType (chunk.headD 0), next)) ↔ Deliverable bufferSize chunk := by
  obtain ⟨c, rest, hChunk⟩ := List.exists_cons_of_ne_nil h.notEmpty
  have hHead : (∀ d ∈ chunk.head?, d < 0x80) ↔ c < 0x80 := by simp [hChunk]
  have hFirst : chunk.headD 0 = c := by simp [hChunk]
  rw [underflow_receives h hOpen, Deliverable, hHead, hFirst]
  by_cases hArray : allocated bufferSize < chunk.length
  · rw [if_pos hArray]
    refine iff_of_false (by simp) fun hFits => ?_
    exact absurd hFits.1 (Nat.not_le.mpr hArray)
  rw [if_neg hArray]
  by_cases hShort : chunk.length < 2 ^ 31
  · have hFits : chunk.length ≤ allocated bufferSize := Nat.not_lt.mp hArray
    rw [if_pos hShort, ← charToInt_eq_iff, and_iff_right hFits, and_iff_right hShort]
    simp
  · rw [if_neg hShort]
    refine iff_of_false ?_ fun hFits => absurd hFits.2.1 hShort
    rintro ⟨next, hReturn⟩
    split_ifs at hReturn
    simp only [Option.some.injEq, Prod.mk.injEq, eof, toIntType] at hReturn
    omega

theorem readAll_of_deliverable {outcomes : List Outcome} {chunks : List Bytes}
    (h : List.Forall₂ (Receives bufferSize) outcomes chunks) (hChunks : ∀ chunk ∈ chunks, Deliverable bufferSize chunk)
    {s : InputStream bufferSize} (hOpen : Open s.toStream) :
    readAll outcomes s = some ((s.available ++ chunks.flatten).map toIntType) := by
  induction h generalizing s with
  | nil => simp [readAll]
  | @cons outcome chunk outcomes chunks hReceives _ ih =>
      rw [List.forall_mem_cons] at hChunks
      obtain ⟨hArray, hShort, hFirst⟩ := hChunks.1
      obtain ⟨c, rest, rfl⟩ := List.exists_cons_of_ne_nil hReceives.notEmpty
      have hValue : charToInt c = toIntType c := (charToInt_eq_iff c).mpr (hFirst c rfl)
      have hUnderflow := @underflow_receives _ _ _ hReceives { s with available := [] } hOpen
      rw [if_neg (Nat.not_lt.mpr hArray), if_pos hShort, List.headD_cons, hValue] at hUnderflow
      have hNotEof : ¬toIntType c = eof := by
        simp only [toIntType, eof]
        omega
      have hRest := @ih hChunks.2 { toStream := s.toStream, available := rest } hOpen
      rw [readAll, hUnderflow]
      dsimp only
      rw [if_neg hNotEof, List.tail_cons, hRest]
      simp

/-- The characters of the chunks are delivered if and only if every chunk is deliverable. -/
theorem delivered_iff {outcomes : List Outcome} {chunks : List Bytes}
    (h : List.Forall₂ (Receives bufferSize) outcomes chunks) :
    Delivered bufferSize outcomes chunks ↔ ∀ chunk ∈ chunks, Deliverable bufferSize chunk := by
  have hOpen : Open (openInput bufferSize).toStream := ⟨rfl, rfl⟩
  constructor
  · rintro ⟨hReturns, _⟩ chunk hChunk
    obtain ⟨i, hi, rfl⟩ := List.getElem_of_mem hChunk
    have hLength : i < outcomes.length := by rw [h.length_eq]; exact hi
    have hReceives := h.get hLength hi
    have hPair : (outcomes[i], chunks[i]) ∈ outcomes.zip chunks := by
      refine List.mem_iff_getElem.mpr ⟨i, ?_, List.getElem_zip⟩
      rw [List.length_zip]
      exact Nat.lt_min.mpr ⟨hLength, hi⟩
    exact (underflow_returns_iff hReceives hOpen).mp (hReturns _ hPair)
  · intro hChunks
    refine ⟨fun pair hPair => ?_, readAll_of_deliverable h hChunks hOpen⟩
    have hReceives := List.forall₂_zip h (a := pair.1) (b := pair.2) hPair
    exact (underflow_returns_iff hReceives hOpen).mpr (hChunks _ (List.of_mem_zip hPair).2)

/-- A `recv` that finds the chunk. -/
def received (chunk : Bytes) : Outcome := ⟨⟨1, false, true⟩, some chunk⟩

theorem delivered_iff_ascii : Delivered 256 [received [0x68, 0xE9], received [0x0A]] [[0x68, 0xE9], [0x0A]] := by
  have hReceives : List.Forall₂ (Receives 256) [received [0x68, 0xE9], received [0x0A]] [[0x68, 0xE9], [0x0A]] :=
    .cons ⟨by decide, rfl, rfl, rfl, by decide, by decide⟩ (.cons ⟨by decide, rfl, rfl, rfl, by decide, by decide⟩ .nil)
  refine (delivered_iff hReceives).mpr (List.forall_mem_cons.mpr ⟨?_, List.forall_mem_cons.mpr ⟨?_, by simp⟩⟩)
  · exact ⟨by decide, by decide, by simp⟩
  · exact ⟨by decide, by decide, by simp⟩

/-- The byte 0xFF at the start of a chunk is returned as -1, which is taken for
the end of the stream. -/
theorem allOnes_not_delivered :
    List.Forall₂ (Receives 256) [received [0xFF, 0x61]] [[0xFF, 0x61]] ∧
      ¬Delivered 256 [received [0xFF, 0x61]] [[0xFF, 0x61]] := by
  constructor
  · exact .cons ⟨by decide, rfl, rfl, rfl, by decide, by decide⟩ .nil
  · rintro ⟨_, hRead⟩
    exact absurd hRead (by decide)

end ImpactSockets.SocketStream
