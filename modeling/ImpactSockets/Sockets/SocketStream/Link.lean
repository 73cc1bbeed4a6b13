import ImpactSockets.Sockets.SocketStream.Hangup
import ImpactSockets.Sockets.SocketStream.ShortSends

/-! Two streams at the ends of one connection: what is written to one of them, accepted
by its socket, carried by the network and read through the other one. -/
namespace ImpactSockets.SocketStream

open Transition

variable {outSize inSize : UInt32}

/-- The stream that is written to and the stream that is read from. What the second one
calls unsent is what the first socket has accepted and the network still carries. -/
structure Link (outSize inSize : UInt32) where
  writer : Writer outSize
  reader : Connection inSize
  destroyed : Bool

def openLink (outSize inSize : UInt32) : Link outSize inSize := ⟨openWriter outSize, connect inSize [], false⟩

/-- The user writes to the first stream or destroys it, which flushes nothing. The network
delivers some bytes, or after the last one the end. The other user reads. -/
inductive LinkAction where
  | write (action : Action)
  | destroy
  | arrive (count : Nat)
  | finish
  | read (poll : Poll) (recv : Option Nat)

def linkStep (l : Link outSize inSize) : LinkAction → Option (Link outSize inSize)
  | .write action =>
      if l.destroyed then none
      else
        (writerStep l.writer action).map fun writer =>
          { l with
            writer
            reader := { l.reader with
              unsent := l.reader.unsent ++ writer.stream.accepted.drop l.writer.stream.accepted.length } }
  | .destroy => some { l with destroyed := true }
  | .arrive count => (connectionStep l.reader (.arrive count)).map fun reader => { l with reader }
  | .finish => if l.destroyed then (connectionStep l.reader .close).map fun reader => { l with reader } else none
  | .read poll recv => (connectionStep l.reader (.underflow poll recv)).map fun reader => { l with reader }

/-! ### Steps -/

/-- What the socket has accepted is only added to. -/
theorem accepted_prefix {w next : Writer outSize} (sound : w.Sound) {action : Action}
    (h : writerStep w action = some next) : w.stream.accepted <+: next.stream.accepted := by
  cases writes_of_step sound.isOpen h with
  | stored hRoom => exact List.prefix_refl _
  | overflowed hRoom hSend => exact List.prefix_append _ _
  | refused hRoom hSend => exact List.prefix_refl _
  | synced hSend => exact List.prefix_append _ _
  | failed hSend => exact List.prefix_refl _

/-- More of the message is known while the other end is open. -/
theorem Connection.Sound.extend {message : Bytes} {c : Connection inSize} (sound : c.Sound message)
    (hOpen : c.closed = false) (more : Bytes) :
    ({ c with unsent := c.unsent ++ more } : Connection inSize).Sound (message ++ more) where
  content := by
    change c.delivered ++ c.unread ++ (c.unsent ++ more) = message ++ more
    rw [← List.append_assoc, sound.content]
  closed := by simp [hOpen]
  handle := sound.handle
  hangup := sound.hangup
  ended := sound.ended

/-- Both ends are sound, and the end of the connection is not delivered before its writer
is gone. -/
structure Link.Sound (l : Link outSize inSize) : Prop where
  writer : l.writer.Sound
  reader : l.reader.Sound l.writer.stream.accepted
  destroyed : l.reader.closed = true → l.destroyed = true

theorem Link.Sound.step {l next : Link outSize inSize} (sound : l.Sound) {action : LinkAction}
    (h : linkStep l action = some next) : next.Sound := by
  obtain ⟨hWriter, hReader, hDestroyed⟩ := sound
  cases action with
  | write action =>
      rw [linkStep] at h
      split_ifs at h with hGone
      obtain ⟨writer, hWrite, rfl⟩ := Option.map_eq_some_iff.mp h
      obtain ⟨more, hMore⟩ := accepted_prefix hWriter hWrite
      have hOpen : l.reader.closed = false := by
        rw [Bool.eq_false_iff]
        exact fun hClosed => hGone (hDestroyed hClosed)
      refine ⟨hWriter.step hWrite, ?_, hDestroyed⟩
      dsimp only
      rw [← hMore, List.drop_left]
      exact hReader.extend hOpen more
  | destroy =>
      cases h
      exact ⟨hWriter, hReader, fun _ => rfl⟩
  | arrive count =>
      rw [linkStep] at h
      obtain ⟨reader, hArrive, rfl⟩ := Option.map_eq_some_iff.mp h
      refine ⟨hWriter, hReader.step hArrive, ?_⟩
      cases hArrive
      exact hDestroyed
  | finish =>
      rw [linkStep] at h
      split_ifs at h with hGone
      obtain ⟨reader, hClose, rfl⟩ := Option.map_eq_some_iff.mp h
      exact ⟨hWriter, hReader.step hClose, fun _ => hGone⟩
  | read poll recv =>
      obtain ⟨reader, hRead, rfl⟩ := Option.map_eq_some_iff.mp h
      refine ⟨hWriter, hReader.step hRead, ?_⟩
      obtain ⟨value, hStep⟩ := underflowed_of_step hReader.handle hRead
      rw [hStep.peer.2]
      exact hDestroyed

theorem link_sound_of_runs {actions : List LinkAction} {l : Link outSize inSize}
    (run : Runs linkStep (openLink outSize inSize) actions l) : l.Sound := by
  refine run.invariant ⟨⟨⟨rfl, rfl⟩, Nat.le_refl _⟩, ⟨rfl, fun hClosed => ?_, rfl, fun hHangup => ?_, fun got hGot => ?_⟩,
    fun hClosed => ?_⟩ fun _ _ _ sound h => sound.step h
  · cases hClosed
  · cases hHangup
  · cases hGot
  · cases hClosed

/-! ### Runs -/

/-- The step flushes in full: no character meets a full put area, and the socket accepts
all that `sync` gives it, unless it throws. -/
def FlushedInFull (_ : List LinkAction) (l : Link outSize inSize) : LinkAction → Prop
  | .write action => FlushesInFull l.writer action
  | _ => True

/-- The step flushes in full, and until the end of the connection has come and nothing is
unread, every call of `underflow` before the first EOF finds a character. -/
def Faithful (before : List LinkAction) (l : Link outSize inSize) (action : LinkAction) : Prop :=
  FlushedInFull before l action ∧
    match action with
    | .read poll recv =>
        l.reader.ended = none → ¬(l.reader.unread = [] ∧ l.reader.closed = true) → l.reader.FindsData poll recv
    | _ => True

/-- A step that flushes in full loses nothing of what is written. -/
theorem kept_of_step {l next : Link outSize inSize} (sound : l.Sound) (kept : l.writer.Kept) {before : List LinkAction}
    {action : LinkAction} (full : FlushedInFull before l action) (h : linkStep l action = some next) :
    next.writer.Kept := by
  cases action with
  | write action =>
      rw [linkStep] at h
      split_ifs at h
      obtain ⟨writer, hWrite, rfl⟩ := Option.map_eq_some_iff.mp h
      exact kept.step sound.writer full hWrite
  | destroy =>
      cases h
      exact kept
  | arrive count =>
      cases h
      exact kept
  | finish =>
      rw [linkStep] at h
      split_ifs at h
      obtain ⟨reader, _, rfl⟩ := Option.map_eq_some_iff.mp h
      exact kept
  | read poll recv =>
      obtain ⟨reader, _, rfl⟩ := Option.map_eq_some_iff.mp h
      exact kept

theorem kept_of_flushedInFull {actions : List LinkAction}
    (h : EachStep linkStep (openLink outSize inSize) actions FlushedInFull) :
    Throughout linkStep (openLink outSize inSize) actions fun _ l => l.writer.Kept := by
  refine throughout_of_eachStep (List.append_nil _) ?_ h
  exact fun _ _ _ _ prior kept full hStep => kept_of_step (link_sound_of_runs prior) kept full hStep

/-- EOF is reported when everything has been delivered. -/
def Connection.EndsWhole (c : Connection inSize) : Prop :=
  ∀ got ∈ c.ended, c.closed = true ∧ c.unread = [] ∧ got = c.delivered

/-- The reader's part of a faithful step. -/
theorem endsWhole_of_read {message : Bytes} {c next : Connection inSize} (sound : c.Sound message)
    (whole : c.EndsWhole) {poll : Poll} {recv : Option Nat}
    (hFinds : c.ended = none → ¬(c.unread = [] ∧ c.closed = true) → c.FindsData poll recv)
    (h : connectionStep c (.underflow poll recv) = some next) : next.EndsWhole := by
  obtain ⟨value, hStep⟩ := underflowed_of_step sound.handle h
  -- at the end of the connection nothing is left to deliver
  have hLast (hClosed : c.closed = true) (hUnread : c.unread = []) :
      next.closed = true ∧ next.unread = [] ∧ c.delivered = next.delivered := by
    obtain ⟨more, hMore⟩ := hStep.delivered
    have hContent := hStep.content
    rw [hUnread, ← hMore, List.append_assoc, List.append_right_inj, List.append_eq_nil_iff] at hContent
    rw [hStep.peer.2, ← hMore, hContent.1, List.append_nil]
    exact ⟨hClosed, hContent.2, rfl⟩
  intro got hGot
  rw [hStep.ended] at hGot
  rcases Option.or_eq_some_iff.mp hGot with hBefore | ⟨hNone, hNow⟩
  · obtain ⟨hClosed, hUnread, rfl⟩ := whole got hBefore
    exact hLast hClosed hUnread
  · split_ifs at hNow with hEof
    cases hNow
    have hDone : c.unread = [] ∧ c.closed = true := by
      by_contra hTodo
      have hOpen : c.stream.hangup = false := by
        rw [Bool.eq_false_iff]
        intro hHangup
        have hReported := (sound.hangup hHangup).2
        rw [hNone] at hReported
        cases hReported
      exact (hStep.eof_iff hOpen hTodo).mp hEof (hFinds hNone hTodo)
    exact hLast hDone.2 hDone.1

theorem endsWhole_of_step {l next : Link outSize inSize} (sound : l.Sound) (whole : l.reader.EndsWhole)
    {before : List LinkAction} {action : LinkAction} (faithful : Faithful before l action)
    (h : linkStep l action = some next) : next.reader.EndsWhole := by
  cases action with
  | write action =>
      rw [linkStep] at h
      split_ifs at h
      obtain ⟨writer, _, rfl⟩ := Option.map_eq_some_iff.mp h
      exact whole
  | destroy =>
      cases h
      exact whole
  | arrive count =>
      cases h
      intro got hGot
      obtain ⟨hClosed, hUnread, hAll⟩ := whole got hGot
      -- behind the end of the connection nothing arrives
      have hUnsent := sound.reader.closed hClosed
      exact ⟨hClosed, by simp only [hUnread, hUnsent, List.take_nil, List.append_nil], hAll⟩
  | finish =>
      rw [linkStep] at h
      split_ifs at h
      obtain ⟨reader, hClose, rfl⟩ := Option.map_eq_some_iff.mp h
      rw [connectionStep] at hClose
      split_ifs at hClose
      cases hClose
      exact fun got hGot => ⟨rfl, (whole got hGot).2⟩
  | read poll recv =>
      obtain ⟨reader, hRead, rfl⟩ := Option.map_eq_some_iff.mp h
      exact endsWhole_of_read sound.reader whole faithful.2 hRead

theorem endsWhole_of_faithful {actions : List LinkAction}
    (h : EachStep linkStep (openLink outSize inSize) actions Faithful) :
    Throughout linkStep (openLink outSize inSize) actions fun _ l => l.reader.EndsWhole := by
  refine throughout_of_eachStep (fun got hGot => (by cases hGot)) ?_ h
  exact fun _ _ _ _ prior whole faithful hStep => endsWhole_of_step (link_sound_of_runs prior) whole faithful hStep

/-- What the first socket has accepted is what the second stream has delivered, what its
kernel holds and what is still on its way, in this order. Where the steps flush in full,
all that has been written is there, with the put area at the end. Where besides every call
of `underflow` finds a character up to the end of the connection, the first EOF is reported
when the reader has everything but that area. -/
theorem link_delivers (actions : List LinkAction) (l : Link outSize inSize)
    (run : Runs linkStep (openLink outSize inSize) actions l) :
    l.reader.delivered ++ l.reader.unread ++ l.reader.unsent = l.writer.stream.accepted ∧
      (EachStep linkStep (openLink outSize inSize) actions FlushedInFull →
        l.reader.delivered ++ l.reader.unread ++ l.reader.unsent ++ l.writer.stream.area = l.writer.written) ∧
      (EachStep linkStep (openLink outSize inSize) actions Faithful →
        (l.reader.stream.hangup = true → l.reader.ended.isSome = true) ∧
          ∀ got ∈ l.reader.ended, got = l.reader.delivered ∧ got ++ l.writer.stream.area = l.writer.written) := by
  have sound := link_sound_of_runs run
  have hWritten (hFull : EachStep linkStep (openLink outSize inSize) actions FlushedInFull) :
      l.reader.delivered ++ l.reader.unread ++ l.reader.unsent ++ l.writer.stream.area = l.writer.written := by
    rw [sound.reader.content]
    exact (kept_of_flushedInFull hFull).finish run
  refine ⟨sound.reader.content, hWritten, fun hFaithful => ⟨fun hHangup => (sound.reader.hangup hHangup).2, ?_⟩⟩
  intro got hGot
  obtain ⟨hClosed, hUnread, rfl⟩ := (endsWhole_of_faithful hFaithful).finish run got hGot
  have hAll := hWritten fun before action s hPrefix prior => (hFaithful before action s hPrefix prior).1
  rw [hUnread, sound.reader.closed hClosed, List.append_nil, List.append_nil] at hAll
  exact ⟨rfl, hAll⟩

/-- Two characters are sent and read, and a third one is destroyed with its stream. -/
def twoOfThree : List LinkAction :=
  [.write (.put 0x68 sendAll), .write (.put 0x69 sendAll), .write (.sync sendAll), .arrive 1,
    .read ⟨1, false, true⟩ (some 1), .write (.put 0x21 sendAll), .destroy, .arrive 1,
    .read ⟨1, false, true⟩ (some 1), .finish, .read ⟨1, true, true⟩ (some 0)]

theorem link_delivers_twoOfThree :
    ∃ l : Link 256 256, Runs linkStep (openLink 256 256) twoOfThree l ∧ l.reader.stream.hangup = true ∧
      l.reader.delivered ++ l.reader.unread ++ l.reader.unsent = l.writer.stream.accepted :=
  ⟨_, runs_iff_foldlM.mpr rfl, rfl, (link_delivers twoOfThree _ (runs_iff_foldlM.mpr rfl)).1⟩

end ImpactSockets.SocketStream
