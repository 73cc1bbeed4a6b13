import ImpactSockets.Sockets.SocketStream.Input

/-! A peer that sends a message and closes, read through a stream. The stream looks
for the hang-up first, for data after it, and reports the end with a number that is
also a character. -/
namespace ImpactSockets.SocketStream

open Transition

variable {bufferSize : UInt32}

/-! ### The connection -/

/-- A stream and its peer: what the peer has not sent yet, what the kernel holds of
what it has sent, and what has been put into the get area. When `underflow` has
returned EOF, `ended` is what had been put there before it first did. -/
structure Connection (bufferSize : UInt32) where
  stream : InputStream bufferSize
  delivered : Bytes
  ended : Option Bytes
  unread : Bytes
  unsent : Bytes
  closed : Bool

/-- A new connection to a peer that is going to send the message. -/
def connect (bufferSize : UInt32) (message : Bytes) : Connection bufferSize where
  stream := openInput bufferSize
  delivered := []
  ended := none
  unread := []
  unsent := message
  closed := false

/-- What `poll` and `recv` may do: a hang-up is reported after the close, data when
there are some or after the close, and `recv` returns some of the unread bytes, or
0 when there are no more to come. -/
def Connection.Allows (c : Connection bufferSize) (poll : Poll) (recv : Option Nat) : Prop :=
  (poll.hangup = true → c.closed = true) ∧ (poll.readable = true → c.unread ≠ [] ∨ c.closed = true) ∧
    ∀ count ∈ recv, count ≤ c.unread.length ∧ count ≤ (streamBufferSize bufferSize).toNat ∧
      (count = 0 → c.unread = [] ∧ c.closed = true)

instance (c : Connection bufferSize) (poll : Poll) (recv : Option Nat) : Decidable (c.Allows poll recv) :=
  inferInstanceAs (Decidable (_ ∧ _ ∧ _))

/-- The call of `underflow` gets as far as its `recv`. -/
def Connection.Receiving (c : Connection bufferSize) (poll : Poll) : Prop :=
  c.stream.handle = true ∧ c.stream.hangup = false ∧ poll.status ≠ 0 ∧ poll.hangup = false ∧ poll.readable = true

instance (c : Connection bufferSize) (poll : Poll) : Decidable (c.Receiving poll) :=
  inferInstanceAs (Decidable (_ ∧ _ ∧ _ ∧ _ ∧ _))

/-- The peer sends some bytes, or closes after its last one. The reader calls
`underflow` at the end of the get area; the number is what `recv` returns. -/
inductive ConnectionAction where
  | arrive (count : Nat)
  | close
  | underflow (poll : Poll) (recv : Option Nat)

def connectionStep (c : Connection bufferSize) : ConnectionAction → Option (Connection bufferSize)
  | .arrive count => some { c with unread := c.unread ++ c.unsent.take count, unsent := c.unsent.drop count }
  | .close => if c.unsent = [] then some { c with closed := true } else none
  | .underflow poll recv =>
      if c.Allows poll recv then
        (underflow ⟨poll, recv.map c.unread.take⟩ { c.stream with available := [] }).map fun result =>
          { c with
            stream := result.2
            delivered := c.delivered ++ result.2.available
            ended := c.ended.or (if result.1 = eof then some c.delivered else none)
            unread := if c.Receiving poll then c.unread.drop (recv.getD 0) else c.unread }
      else none

/-! ### Steps -/

/-- A count of bytes that fit into the get area is not taken for an error. -/
theorem toInt_ne_error {length : Nat} (hSize : length ≤ (streamBufferSize bufferSize).toNat)
    (hArray : length ≤ allocated bufferSize) : toInt length ≠ -1 := by
  have hBound := (streamBufferSize bufferSize).toNat_lt
  intro hError
  have hLast : length = 2 ^ 32 - 1 := by
    unfold toInt at hError
    dsimp only at hError
    split_ifs at hError with hLow
    omega
  have hWrapped : allocated bufferSize = 0 := by
    rw [allocated, UInt32.toNat_add, show (streamBufferSize bufferSize).toNat = 2 ^ 32 - 1 by omega]
    rfl
  omega

theorem toInt_eq_zero {length : Nat} (hBound : length < 2 ^ 32) (h : toInt length = 0) : length = 0 := by
  unfold toInt at h
  dsimp only at h
  split_ifs at h with hLow <;> omega

set_option maxRecDepth 4000 in
/-- The one character that is taken for the end of the stream. -/
theorem charToInt_eq_eof_iff : ∀ c : UInt8, charToInt c = eof ↔ c = 0xFF := by
  decide

/-- A call that does not get as far as its `recv`. -/
theorem underflow_idle {s : InputStream bufferSize} (hHandle : s.handle = true) {outcome : Outcome}
    (h : ¬(s.hangup = false ∧ outcome.poll.status ≠ 0 ∧ outcome.poll.hangup = false ∧ outcome.poll.readable = true)) :
    ∃ t, underflow outcome s = some (eof, t) ∧ t.handle = true ∧ t.available = s.available ∧
      (t.hangup = true ↔ s.hangup = true ∨ (outcome.poll.status ≠ 0 ∧ outcome.poll.hangup = true)) := by
  unfold underflow
  rw [if_neg (by simp [hHandle])]
  by_cases hHangup : s.hangup = true
  · exact ⟨_, if_pos hHangup, hHandle, rfl, by simp [hHangup]⟩
  by_cases hStatus : outcome.poll.status = 0
  · rw [if_neg hHangup, if_pos hStatus]
    exact ⟨_, rfl, hHandle, rfl, by simp [hStatus]⟩
  by_cases hReported : outcome.poll.hangup = true
  · rw [if_neg hHangup, if_neg hStatus, if_pos hReported]
    exact ⟨_, rfl, hHandle, rfl, by simp [hStatus, hReported]⟩
  · have hReadable : ¬outcome.poll.readable = true := by simp_all
    rw [if_neg hHangup, if_neg hStatus, if_neg hReported, if_neg hReadable]
    exact ⟨_, rfl, hHandle, rfl, by simp [hReported]⟩

/-- A call that takes what `recv` returns into an empty get area. -/
theorem underflow_takes {s t : InputStream bufferSize} (hHandle : s.handle = true) (hEmpty : s.available = [])
    {outcome : Outcome} {value : Int} (h : underflow outcome s = some (value, t))
    (hReceiving : s.hangup = false ∧ outcome.poll.status ≠ 0 ∧ outcome.poll.hangup = false ∧
      outcome.poll.readable = true)
    (hFits : ∀ chunk ∈ outcome.recv, chunk.length ≤ (streamBufferSize bufferSize).toNat) :
    t.handle = true ∧ t.hangup = false ∧ t.available = outcome.recv.getD [] ∧
      (value = eof ↔ ¬∃ c rest, outcome.recv = some (c :: rest) ∧ c ≠ 0xFF) := by
  obtain ⟨hHangup, hStatus, hReported, hReadable⟩ := hReceiving
  unfold underflow at h
  rw [if_neg (by simp [hHandle]), if_neg (by simp [hHangup]), if_neg hStatus, if_neg (by simp [hReported]),
    if_pos hReadable] at h
  cases hRecv : outcome.recv with
  | none =>
      rw [hRecv] at h
      cases h
      exact ⟨hHandle, hHangup, hEmpty, by simp⟩
  | some chunk =>
      have hSize := hFits chunk hRecv
      rw [hRecv] at h
      dsimp only at h
      split_ifs at h with hArray hError hZero hNegative
      · exact (toInt_ne_error hSize (Nat.not_lt.mp hArray) hError).elim
      · cases h
        have hLength := toInt_eq_zero (Nat.lt_of_le_of_lt hSize (UInt32.toNat_lt _)) hZero
        obtain rfl := List.length_eq_zero_iff.mp hLength
        exact ⟨hHandle, hHangup, hEmpty, by simp⟩
      · cases h
        refine ⟨hHandle, hHangup, rfl, ?_⟩
        cases chunk with
        | nil => exact (hZero rfl).elim
        | cons first rest => simp [charToInt_eq_eof_iff]

/-- A call of `underflow` finds a character to return: the poll does not time out
and reports data and no hang-up, `recv` does not throw, and the next byte is not the
one that is taken for EOF. -/
def Connection.FindsData (c : Connection bufferSize) (poll : Poll) (recv : Option Nat) : Prop :=
  poll.status ≠ 0 ∧ poll.hangup = false ∧ poll.readable = true ∧ recv.isSome = true ∧ c.unread.head? ≠ some 0xFF

instance (c : Connection bufferSize) (poll : Poll) (recv : Option Nat) : Decidable (c.FindsData poll recv) :=
  inferInstanceAs (Decidable (_ ∧ _ ∧ _ ∧ _ ∧ _))

/-- As long as more is to come, a `recv` that is allowed returns at least a byte. -/
theorem findsData_iff {c : Connection bufferSize} {poll : Poll} {recv : Option Nat} (hAllows : c.Allows poll recv)
    (hReceiving : c.Receiving poll) (hMore : ¬(c.unread = [] ∧ c.closed = true)) :
    c.FindsData poll recv ↔ ∃ first rest, recv.map c.unread.take = some (first :: rest) ∧ first ≠ 0xFF := by
  obtain ⟨_, _, hStatus, hReported, hReadable⟩ := hReceiving
  constructor
  · rintro ⟨_, _, _, hRecv, hFirst⟩
    obtain ⟨count, rfl⟩ := Option.isSome_iff_exists.mp hRecv
    obtain ⟨hCount, _, hZero⟩ := hAllows.2.2 count rfl
    have hPositive : count ≠ 0 := fun hNone => hMore (hZero hNone)
    obtain ⟨n, rfl⟩ := Nat.exists_eq_add_one_of_ne_zero hPositive
    cases hUnread : c.unread with
    | nil =>
        rw [hUnread] at hCount
        cases hCount
    | cons first rest =>
        rw [hUnread] at hFirst
        exact ⟨first, rest.take n, rfl, fun hEq => hFirst (congrArg some hEq)⟩
  · rintro ⟨first, rest, hTaken, hFirst⟩
    obtain ⟨count, rfl, hTake⟩ := Option.map_eq_some_iff.mp hTaken
    refine ⟨hStatus, hReported, hReadable, rfl, ?_⟩
    rw [← List.take_append_drop count c.unread, hTake]
    simpa using hFirst

/-- What a call of `underflow` that returns this value does to the connection. -/
structure Underflowed (c : Connection bufferSize) (poll : Poll) (recv : Option Nat) (value : Int)
    (next : Connection bufferSize) : Prop where
  reported : poll.hangup = true → c.closed = true
  peer : next.unsent = c.unsent ∧ next.closed = c.closed
  handle : next.stream.handle = true
  content : next.delivered ++ next.unread = c.delivered ++ c.unread
  delivered : c.delivered <+: next.delivered
  ended : next.ended = c.ended.or (if value = eof then some c.delivered else none)
  hangup : next.stream.hangup = true ↔ c.stream.hangup = true ∨ (poll.status ≠ 0 ∧ poll.hangup = true)
  eof_of_hangup : next.stream.hangup = true → value = eof
  eof_iff : c.stream.hangup = false → ¬(c.unread = [] ∧ c.closed = true) → (value = eof ↔ ¬c.FindsData poll recv)

theorem underflowed_of_step {c next : Connection bufferSize} (hHandle : c.stream.handle = true) {poll : Poll}
    {recv : Option Nat} (h : connectionStep c (.underflow poll recv) = some next) :
    ∃ value, Underflowed c poll recv value next := by
  by_cases hAllows : c.Allows poll recv
  · rw [connectionStep, if_pos hAllows] at h
    obtain ⟨⟨value, stream⟩, hUnderflow, rfl⟩ := Option.map_eq_some_iff.mp h
    refine ⟨value, ?_⟩
    by_cases hReceiving : c.Receiving poll
    · have hFits : ∀ chunk ∈ recv.map c.unread.take, chunk.length ≤ (streamBufferSize bufferSize).toNat := by
        intro chunk hChunk
        obtain ⟨count, hCount, rfl⟩ := Option.map_eq_some_iff.mp hChunk
        exact (List.length_take_le _ _).trans (hAllows.2.2 count hCount).2.1
      rw [if_pos hReceiving]
      obtain ⟨hHandleNext, hHangup, hAvailable, hEof⟩ := @underflow_takes _ { c.stream with available := [] } stream
        hHandle rfl ⟨poll, recv.map c.unread.take⟩ value hUnderflow hReceiving.2 hFits
      refine ⟨hAllows.1, ⟨rfl, rfl⟩, hHandleNext, ?_, List.prefix_append _ _, rfl, ?_, fun hNext => ?_,
        fun _ hMore => ?_⟩
      · have hTaken : stream.available = c.unread.take (recv.getD 0) := by
          rw [hAvailable]
          cases recv <;> simp
        simp only [hTaken, List.append_assoc, List.take_append_drop]
      · simp [hHangup, hReceiving.2.1, hReceiving.2.2.2.1]
      · rw [show stream.hangup = true from hNext] at hHangup
        cases hHangup
      · rw [hEof, findsData_iff hAllows hReceiving hMore]
    · rw [if_neg hReceiving]
      obtain ⟨_, hResult, hHandleNext, hAvailable, hHangup⟩ := @underflow_idle _ { c.stream with available := [] }
        hHandle ⟨poll, recv.map c.unread.take⟩ fun hNot => hReceiving ⟨hHandle, hNot⟩
      rw [hResult] at hUnderflow
      cases hUnderflow
      refine ⟨hAllows.1, ⟨rfl, rfl⟩, hHandleNext, ?_, List.prefix_append _ _, rfl, hHangup, fun _ => rfl,
        fun hOpen _ => iff_of_true rfl fun hFinds => hReceiving ?_⟩
      · simp only [hAvailable, List.append_nil]
      · exact ⟨hHandle, hOpen, hFinds.1, hFinds.2.1, hFinds.2.2.1⟩
  · rw [connectionStep, if_neg hAllows] at h
    cases h

/-! ### Runs -/

/-- Every byte of the message is delivered, in the kernel, or not sent yet. A hang-up
is only seen after the close, and is reported. -/
structure Connection.Sound (message : Bytes) (c : Connection bufferSize) : Prop where
  content : c.delivered ++ c.unread ++ c.unsent = message
  closed : c.closed = true → c.unsent = []
  handle : c.stream.handle = true
  hangup : c.stream.hangup = true → c.closed = true ∧ c.ended.isSome = true
  ended : ∀ got ∈ c.ended, got <+: c.delivered

theorem Connection.Sound.step {message : Bytes} {c next : Connection bufferSize} (sound : c.Sound message)
    {action : ConnectionAction} (h : connectionStep c action = some next) : next.Sound message := by
  obtain ⟨hContent, hClosed, hHandle, hHangup, hEnded⟩ := sound
  cases action with
  | arrive count =>
      cases h
      refine ⟨?_, fun hClose => ?_, hHandle, hHangup, hEnded⟩
      · rw [← hContent]
        simp only [List.append_assoc, List.take_append_drop]
      · simp only [hClosed hClose, List.drop_nil]
  | close =>
      rw [connectionStep] at h
      split_ifs at h with hUnsent
      cases h
      exact ⟨hContent, fun _ => hUnsent, hHandle, fun hNext => ⟨rfl, (hHangup hNext).2⟩, hEnded⟩
  | underflow poll recv =>
      obtain ⟨value, hStep⟩ := underflowed_of_step hHandle h
      refine ⟨?_, ?_, hStep.handle, fun hNext => ⟨?_, ?_⟩, fun got hGot => ?_⟩
      · rw [hStep.content, hStep.peer.1, hContent]
      · rw [hStep.peer.1, hStep.peer.2]
        exact hClosed
      · rw [hStep.peer.2]
        rcases hStep.hangup.mp hNext with hBefore | hReported
        · exact (hHangup hBefore).1
        · exact hStep.reported hReported.2
      · rw [hStep.ended, if_pos (hStep.eof_of_hangup hNext)]
        cases c.ended <;> rfl
      · rw [hStep.ended] at hGot
        rcases Option.or_eq_some_iff.mp hGot with hBefore | ⟨_, hNow⟩
        · exact (hEnded got hBefore).trans hStep.delivered
        · split_ifs at hNow
          cases hNow
          exact hStep.delivered

theorem connection_sound_of_runs {message : Bytes} {actions : List ConnectionAction} {c : Connection bufferSize}
    (run : Runs connectionStep (connect bufferSize message) actions c) : c.Sound message := by
  refine run.invariant ⟨rfl, fun hClosed => ?_, rfl, fun hHangup => ?_, fun got hGot => ?_⟩
    fun _ _ _ sound h => sound.step h
  · cases hClosed
  · cases hHangup
  · cases hGot

/-- The reader has got the whole message when `underflow` first returns EOF, and when
the stream hangs up. -/
def Connection.Complete (message : Bytes) (c : Connection bufferSize) : Prop :=
  (∀ got ∈ c.ended, got = message) ∧ (c.stream.hangup = true → c.delivered = message)

/-- A hang-up is not seen before EOF is. -/
theorem Connection.Sound.complete_iff {message : Bytes} {c : Connection bufferSize} (sound : c.Sound message) :
    c.Complete message ↔ ∀ got ∈ c.ended, got = message := by
  refine and_iff_left_of_imp fun hEnded hHangup => ?_
  obtain ⟨got, hGot⟩ := Option.isSome_iff_exists.mp (sound.hangup hHangup).2
  have hAll : message <+: c.delivered := hEnded got hGot ▸ sound.ended got hGot
  have hPart : c.delivered <+: message := ⟨c.unread ++ c.unsent, (List.append_assoc ..).symm.trans sound.content⟩
  exact hPart.eq_of_length_le hAll.length_le

/-- Everything that the peer is going to send has been delivered. -/
theorem Connection.Sound.delivered_eq_iff {message : Bytes} {c : Connection bufferSize} (sound : c.Sound message) :
    c.delivered = message ↔ c.unread = [] ∧ c.unsent = [] := by
  rw [← List.append_eq_nil_iff, ← sound.content, List.append_assoc]
  exact List.self_eq_append_right

/-- As long as bytes are to come, no call of `underflow` before the first EOF fails to
find a character. -/
def FindsWhatComes (c : Connection bufferSize) : ConnectionAction → Prop
  | .underflow poll recv => c.ended = none → ¬(c.unread = [] ∧ c.unsent = []) → c.FindsData poll recv
  | _ => True

/-- One call of `underflow`. -/
theorem Connection.Sound.complete_step {message : Bytes} {c next : Connection bufferSize} (sound : c.Sound message)
    {poll : Poll} {recv : Option Nat} (h : connectionStep c (.underflow poll recv) = some next) :
    next.Complete message ↔ c.Complete message ∧ FindsWhatComes c (.underflow poll recv) := by
  obtain ⟨value, hStep⟩ := underflowed_of_step sound.handle h
  rw [(sound.step h).complete_iff, sound.complete_iff, hStep.ended]
  cases hEnded : c.ended with
  | some got =>
      refine (and_iff_left ?_).symm
      intro hNone
      rw [hEnded] at hNone
      cases hNone
  | none =>
      have hOpen : c.stream.hangup = false := by
        rw [Bool.eq_false_iff]
        intro hHangup
        have hReported := (sound.hangup hHangup).2
        rw [hEnded] at hReported
        cases hReported
      have hEof (hTodo : ¬(c.unread = [] ∧ c.unsent = [])) : value = eof ↔ ¬c.FindsData poll recv :=
        hStep.eof_iff hOpen fun hDone => hTodo ⟨hDone.1, sound.closed hDone.2⟩
      constructor
      · intro hAll
        refine ⟨fun got hGot => (by cases hGot), fun _ hTodo => ?_⟩
        by_contra hNot
        refine hTodo (sound.delivered_eq_iff.mp (hAll c.delivered ?_))
        rw [if_pos ((hEof hTodo).mpr hNot)]
        rfl
      · rintro ⟨_, hFinds⟩ got hGot
        rw [Option.none_or] at hGot
        split_ifs at hGot with hValue
        · cases hGot
          rw [sound.delivered_eq_iff]
          by_contra hTodo
          exact (hEof hTodo).mp hValue (hFinds hEnded hTodo)
        · cases hGot

/-- The exact runs in which the whole message is delivered before EOF is first reported
and the stream hangs up: those in which every call of `underflow` finds a character, up
to the end of the message. -/
theorem complete_throughout_iff (bufferSize : UInt32) (message : Bytes) (actions : List ConnectionAction)
    (c : Connection bufferSize) (run : Runs connectionStep (connect bufferSize message) actions c) :
    Throughout connectionStep (connect bufferSize message) actions (fun _ => Connection.Complete message) ↔
      EachStep connectionStep (connect bufferSize message) actions fun _ => FindsWhatComes := by
  constructor
  · refine eachStep_of_throughout ?_ run
    intro actions action c next prior h complete
    cases action with
    | arrive count => trivial
    | close => trivial
    | underflow poll recv => exact ((connection_sound_of_runs prior).complete_step h |>.mp complete).2
  · refine throughout_of_eachStep ?_ ?_
    · constructor
      · intro got hGot
        cases hGot
      · intro hHangup
        cases hHangup
    · intro actions action c next prior complete hFinds h
      cases action with
      | arrive count =>
          cases h
          exact complete
      | close =>
          rw [connectionStep] at h
          split_ifs at h
          cases h
          exact complete
      | underflow poll recv => exact ((connection_sound_of_runs prior).complete_step h).mpr ⟨complete, hFinds⟩

/-- Two bytes and a close, of which the reader hears in one poll. -/
def sentAndClosed : List ConnectionAction := [.arrive 2, .close, .underflow ⟨1, true, true⟩ (some 2)]

theorem sentAndClosed_loses_message :
    ∃ c : Connection 256, Runs connectionStep (connect 256 [0x68, 0x69]) sentAndClosed c ∧ c.stream.hangup = true ∧
      c.ended = some [] ∧ c.delivered = [] ∧ ¬c.Complete [0x68, 0x69] := by
  refine ⟨_, runs_iff_foldlM.mpr rfl, rfl, rfl, rfl, fun complete => ?_⟩
  exact absurd (complete.2 rfl) (by decide)

/-- The bytes are read one by one before the peer closes. -/
theorem complete_throughout_iff_read :
    Throughout connectionStep (connect 256 [0x68, 0x69])
        [.arrive 2, .underflow ⟨1, false, true⟩ (some 1), .underflow ⟨1, false, true⟩ (some 1), .close,
          .underflow ⟨1, true, true⟩ (some 0)] (fun _ => Connection.Complete [0x68, 0x69]) ↔
      EachStep connectionStep (connect 256 [0x68, 0x69])
        [.arrive 2, .underflow ⟨1, false, true⟩ (some 1), .underflow ⟨1, false, true⟩ (some 1), .close,
          .underflow ⟨1, true, true⟩ (some 0)] fun _ => FindsWhatComes :=
  complete_throughout_iff 256 [0x68, 0x69] _ _ (runs_iff_foldlM.mpr rfl)

end ImpactSockets.SocketStream
