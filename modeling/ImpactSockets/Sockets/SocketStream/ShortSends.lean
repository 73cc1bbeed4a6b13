import ImpactSockets.Sockets.SocketStream.Output

/-! Flushes whose `send` transmits less than it is given. The whole put area is
dropped, whatever the result of `send` was. -/
namespace ImpactSockets.SocketStream

open Transition

variable {bufferSize : UInt32}

/-! ### One flush -/

/-- The stream after a flush of which `send` has transmitted `count` bytes. -/
def flushedShort (s : Stream bufferSize) (count : Nat) : Stream bufferSize :=
  { s with
    area := []
    fits := nil_fits bufferSize
    passed := s.passed ++ [s.area]
    accepted := s.accepted ++ s.area.take count }

/-- The stream after a flush whose `send` has thrown. -/
def flushedNot (s : Stream bufferSize) : Stream bufferSize := { s with passed := s.passed ++ [s.area] }

/-- A flush drops the put area, unless its length is no `int` or `send` throws. -/
theorem writeBase_eq {s : Stream bufferSize} (hOpen : Open s) (c : Int) (send : Send) :
    writeBase c send s =
      if s.area.length < 2 ^ 31 then
        match send s.area with
        | none => some (eof, flushedNot s)
        | some count => some (c, flushedShort s count)
      else none := by
  unfold writeBase
  rw [if_neg (by simp [hOpen.1]), if_neg (by simp [hOpen.2])]
  by_cases h : s.area.length < 2 ^ 31
  · have hLength := toInt_of_lt h
    simp only [h, hLength, ↓reduceIte, Int.toNat_natCast, List.take_length]
    rw [if_neg (by omega)]
    cases send s.area <;> rfl
  · have hNeg := toInt_neg (Nat.not_lt.mp h) (Nat.lt_of_le_of_lt s.fits (capacity_lt bufferSize))
    rw [if_neg h]
    exact if_pos hNeg

/-- After `send` has transmitted `count` bytes of the put area, what is still
buffered begins with the others. -/
def RetainsUnsent (c : Int) (send : Send) (s : Stream bufferSize) (count : Nat) : Prop :=
  ∃ value t, writeBase c send s = some (value, t) ∧ s.area.drop count <+: t.area

theorem retainsUnsent_iff {s : Stream bufferSize} (hOpen : Open s) (c : Int) {send : Send} {count : Nat}
    (hSend : send s.area = some count) (hCount : count ≤ s.area.length) :
    RetainsUnsent c send s count ↔ count = s.area.length ∧ s.area.length < 2 ^ 31 := by
  rw [RetainsUnsent, writeBase_eq hOpen, hSend]
  constructor
  · rintro ⟨value, t, hWrite, hPrefix⟩
    split_ifs at hWrite with hLength
    cases hWrite
    have hNil : s.area.drop count = [] := List.prefix_nil.mp hPrefix
    rw [List.drop_eq_nil_iff] at hNil
    exact ⟨Nat.le_antisymm hCount hNil, hLength⟩
  · rintro ⟨rfl, hLength⟩
    rw [if_pos hLength]
    exact ⟨c, _, rfl, by rw [List.drop_length]; exact List.nil_prefix⟩

/-! ### Runs -/

/-- A stream, and the bytes that have been written to it: those for which `sputc`
did not return EOF. -/
structure Writer (bufferSize : UInt32) where
  stream : Stream bufferSize
  written : Bytes

/-- A stream over an open socket, to which nothing has been written. -/
def openWriter (bufferSize : UInt32) : Writer bufferSize := ⟨initialize_ bufferSize, []⟩

def writerStep (w : Writer bufferSize) : Action → Option (Writer bufferSize)
  | .put c send => (sputc c send w.stream).map fun result =>
      ⟨result.2, if result.1 = eof then w.written else w.written ++ [c]⟩
  | .sync send => (sync send w.stream).map fun result => ⟨result.2, w.written⟩

/-- `send` transmits no more than it is given. -/
def Action.Honest : Action → Prop
  | .put _ send => ∀ bytes count, send bytes = some count → count ≤ bytes.length
  | .sync send => ∀ bytes count, send bytes = some count → count ≤ bytes.length

/-- What one step does to the bytes that are buffered, accepted and written. -/
inductive Writes (w : Writer bufferSize) : Action → Writer bufferSize → Prop where
  | stored {c : UInt8} {send : Send} (h : w.stream.area.length < capacity bufferSize) :
      Writes w (.put c send) ⟨stored c w.stream h, w.written ++ [c]⟩
  | overflowed {c : UInt8} {send : Send} {count : Nat} (h : ¬w.stream.area.length < capacity bufferSize)
      (hSend : send w.stream.area = some count) :
      Writes w (.put c send) ⟨flushedShort w.stream count, w.written ++ [c]⟩
  | refused {c : UInt8} {send : Send} (h : ¬w.stream.area.length < capacity bufferSize)
      (hSend : send w.stream.area = none) : Writes w (.put c send) ⟨flushedNot w.stream, w.written⟩
  | synced {send : Send} {count : Nat} (hSend : send w.stream.area = some count) :
      Writes w (.sync send) ⟨flushedShort w.stream count, w.written⟩
  | failed {send : Send} (hSend : send w.stream.area = none) : Writes w (.sync send) ⟨flushedNot w.stream, w.written⟩

theorem writes_of_step {w next : Writer bufferSize} (hOpen : Open w.stream) {action : Action}
    (h : writerStep w action = some next) : Writes w action next := by
  cases action with
  | put c send =>
      obtain ⟨⟨value, t⟩, hPut, rfl⟩ := Option.map_eq_some_iff.mp h
      by_cases hRoom : w.stream.area.length < capacity bufferSize
      · rw [sputc, dif_pos hRoom] at hPut
        split_ifs at hPut
        cases hPut
        have hValue : ¬(c.toNat : Int) = eof := by
          simp only [eof]
          omega
        dsimp only
        rw [if_neg hValue]
        exact .stored hRoom
      · rw [sputc, dif_neg hRoom, overflow, writeBase_eq hOpen] at hPut
        split_ifs at hPut
        cases hSend : send w.stream.area with
        | none =>
            rw [hSend] at hPut
            cases hPut
            exact .refused hRoom hSend
        | some count =>
            rw [hSend] at hPut
            cases hPut
            have hValue : ¬(c.toNat : Int) = eof := by
              simp only [eof]
              omega
            dsimp only
            rw [if_neg hValue]
            exact .overflowed hRoom hSend
  | sync send =>
      obtain ⟨⟨value, t⟩, hSync, rfl⟩ := Option.map_eq_some_iff.mp h
      rw [sync, writeBase_eq hOpen] at hSync
      split_ifs at hSync
      cases hSend : send w.stream.area with
      | none =>
          rw [hSend] at hSync
          cases hSync
          exact .failed hSend
      | some count =>
          rw [hSend] at hSync
          cases hSync
          exact .synced hSend

/-- The step flushes nothing short, and makes no flush for a character that it
then drops. A `send` that throws is neither. -/
def FlushesInFull (w : Writer bufferSize) : Action → Prop
  | .put _ send => w.stream.area.length < capacity bufferSize ∨ send w.stream.area = none
  | .sync send => ∀ count, send w.stream.area = some count → count = w.stream.area.length

/-- Every byte that has been written is accepted or buffered, in order. -/
def Writer.Kept (w : Writer bufferSize) : Prop := w.stream.accepted ++ w.stream.area = w.written

/-- The socket of the stream is open, and no more is accepted or buffered than has
been written. -/
structure Writer.Sound (w : Writer bufferSize) : Prop where
  isOpen : Open w.stream
  account : w.stream.accepted.length + w.stream.area.length ≤ w.written.length

theorem Writer.Sound.step {w next : Writer bufferSize} (sound : w.Sound) {action : Action}
    (h : writerStep w action = some next) : next.Sound := by
  obtain ⟨hOpen, hAccount⟩ := sound
  cases writes_of_step hOpen h with
  | stored hRoom =>
      refine ⟨hOpen, ?_⟩
      simp only [SocketStream.stored, List.length_append]
      omega
  | overflowed hRoom hSend =>
      refine ⟨hOpen, ?_⟩
      simp only [flushedShort, List.length_append, List.length_take, List.length_nil]
      omega
  | refused hRoom hSend => exact ⟨hOpen, hAccount⟩
  | synced hSend =>
      refine ⟨hOpen, ?_⟩
      simp only [flushedShort, List.length_append, List.length_take, List.length_nil]
      omega
  | failed hSend => exact ⟨hOpen, hAccount⟩

theorem sound_of_writer_runs {actions : List Action} {w : Writer bufferSize}
    (run : Runs writerStep (openWriter bufferSize) actions w) : w.Sound :=
  run.invariant ⟨⟨rfl, rfl⟩, Nat.le_refl _⟩ fun _ _ _ sound h => sound.step h

/-- A step keeps all bytes if it flushes in full. -/
theorem Writer.Kept.step {w next : Writer bufferSize} (kept : w.Kept) (sound : w.Sound) {action : Action}
    (hFull : FlushesInFull w action) (h : writerStep w action = some next) : next.Kept := by
  unfold Kept at *
  cases writes_of_step sound.isOpen h with
  | stored hRoom => simp only [SocketStream.stored, ← kept, List.append_assoc]
  | overflowed hRoom hSend =>
      rcases hFull with hFull | hFull
      · exact (hRoom hFull).elim
      · rw [hFull] at hSend
        cases hSend
  | refused hRoom hSend => exact kept
  | synced hSend =>
      rw [flushedShort, hFull _ hSend]
      simpa using kept
  | failed hSend => exact kept

/-- A step after which all bytes are there has flushed in full, by the number of
bytes. -/
theorem flushesInFull_of_kept {w next : Writer bufferSize} (sound : w.Sound) {action : Action} (honest : action.Honest)
    (h : writerStep w action = some next) (kept : next.Kept) : FlushesInFull w action := by
  have hAccount := sound.account
  have hLength := congrArg List.length kept
  rw [List.length_append] at hLength
  cases writes_of_step sound.isOpen h with
  | stored hRoom => exact .inl hRoom
  | overflowed hRoom hSend =>
      simp only [flushedShort, List.length_append, List.length_take, List.length_nil, List.length_singleton] at hLength
      omega
  | refused hRoom hSend => exact .inr hSend
  | @synced send count hSend =>
      intro other hOther
      rw [hSend] at hOther
      cases hOther
      have hCount : count ≤ w.stream.area.length := honest _ _ hSend
      simp only [flushedShort, List.length_append, List.length_take, List.length_nil] at hLength
      omega
  | failed hSend =>
      intro count hCount
      rw [hSend] at hCount
      cases hCount

theorem kept_of_flushesInFull {actions : List Action}
    (h : EachStep writerStep (openWriter bufferSize) actions fun _ => FlushesInFull) :
    Throughout writerStep (openWriter bufferSize) actions fun _ => Writer.Kept := by
  refine throughout_of_eachStep ?_ ?_ h
  · exact List.append_nil _
  · intro actions action w next prior kept hFull hStep
    exact kept.step (sound_of_writer_runs prior) hFull hStep

/-- A flush keeps what has not been sent if and only if everything has been sent.
The runs in which all bytes are kept are those whose flushes are all of this kind,
and in them what is accepted begins what has been written. -/
theorem shortSends_kept_iff (bufferSize : UInt32) :
    (∀ (s : Stream bufferSize) (c : Int) (send : Send) (count : Nat), Open s → send s.area = some count →
        count ≤ s.area.length →
        (RetainsUnsent c send s count ↔ count = s.area.length ∧ s.area.length < 2 ^ 31)) ∧
      (∀ (actions : List Action) (w : Writer bufferSize), (∀ action ∈ actions, action.Honest) →
        Runs writerStep (openWriter bufferSize) actions w →
        (Throughout writerStep (openWriter bufferSize) actions (fun _ => Writer.Kept) ↔
          EachStep writerStep (openWriter bufferSize) actions fun _ => FlushesInFull)) ∧
      ∀ actions : List Action, EachStep writerStep (openWriter bufferSize) actions (fun _ => FlushesInFull) →
        Throughout writerStep (openWriter bufferSize) actions fun _ w => w.stream.accepted <+: w.written := by
  refine ⟨fun s c send count hOpen hSend => retainsUnsent_iff hOpen c hSend, ?_, ?_⟩
  · intro actions w hHonest run
    refine ⟨fun hKept before action s hPrefix prior => ?_, kept_of_flushesInFull⟩
    obtain ⟨next, runNext⟩ := run.passes hPrefix
    obtain ⟨middle, hPrior, hLast⟩ := runNext.last
    cases prior.deterministic hPrior
    have hAction : action ∈ actions := hPrefix.subset (List.mem_append_right _ (List.mem_singleton_self _))
    exact flushesInFull_of_kept (sound_of_writer_runs prior) (hHonest action hAction) hLast (hKept _ _ hPrefix runNext)
  · intro actions hFull before w hPrefix run
    have kept : w.stream.accepted ++ w.stream.area = w.written := kept_of_flushesInFull hFull before w hPrefix run
    exact ⟨_, kept⟩

/-- Two characters, of which the socket takes both, and a third one. -/
theorem shortSends_kept_iff_both :
    Throughout writerStep (openWriter 256) [.put 0x41 sendAll, .put 0x42 sendAll, .sync sendAll, .put 0x43 sendAll]
        (fun _ => Writer.Kept) ↔
      EachStep writerStep (openWriter 256) [.put 0x41 sendAll, .put 0x42 sendAll, .sync sendAll, .put 0x43 sendAll]
        fun _ => FlushesInFull :=
  (shortSends_kept_iff 256).2.1 _ _ (by simp [Action.Honest, sendAll]) (runs_iff_foldlM.mpr rfl)

/-- A `send` that transmits one byte. -/
def sendOne : Send := fun _ => some 1

/-- Of two characters the socket takes the first. The second is gone, and the third
one is accepted right behind the first. -/
theorem sendOne_not_kept :
    (∃ s : Stream 256, Open s ∧ s.area = [0x41, 0x42] ∧ ¬RetainsUnsent success sendOne s 1) ∧
      ∃ w : Writer 256, Runs writerStep (openWriter 256)
          [.put 0x41 sendAll, .put 0x42 sendAll, .sync sendOne, .put 0x43 sendAll, .sync sendAll] w ∧
        ¬w.stream.accepted <+: w.written := by
  constructor
  · have hOpen : Open ({ initialize_ 256 with area := [0x41, 0x42], fits := by decide } : Stream 256) := ⟨rfl, rfl⟩
    refine ⟨_, hOpen, rfl, fun hRetains => ?_⟩
    exact absurd ((retainsUnsent_iff hOpen success rfl (by decide)).mp hRetains).1 (by decide)
  · exact ⟨_, runs_iff_foldlM.mpr rfl, by decide⟩

end ImpactSockets.SocketStream
