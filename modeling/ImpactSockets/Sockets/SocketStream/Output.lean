import ImpactSockets.Sockets.SocketStream

/-! What reaches the socket of what has been written. A full put area is
flushed, and the character that found it full goes nowhere. -/
namespace ImpactSockets.SocketStream

open Transition

variable {bufferSize : UInt32}

/-- `send` succeeds and transmits all bytes it is given. -/
def Action.Complete : Action → Prop
  | .put _ send => ∀ bytes, send bytes = some bytes.length
  | .sync send => ∀ bytes, send bytes = some bytes.length

/-- The characters written in a run, in order. -/
def written (actions : List Action) : Bytes :=
  actions.filterMap fun
    | .put c _ => some c
    | .sync _ => none

def countUnsynced (count : Nat) : Action → Nat
  | .put _ _ => count + 1
  | .sync _ => 0

/-- How many characters have been written since the last `sync()`. -/
def unsynced (actions : List Action) : Nat := actions.foldl countUnsynced 0

/-- How many characters may be written between two calls of `sync()`. -/
def limit (bufferSize : UInt32) : Nat :=
  min (min (capacity bufferSize) (allocated bufferSize)) (2 ^ 31 - 1)

/-- The run stays within its arrays, and the byte strings passed to `send` add
up to the characters written. -/
def Conserved (bufferSize : UInt32) (actions : List Action) : Prop :=
  ∃ s, Runs step (initialize_ bufferSize) actions s ∧ s.passed.flatten = written actions

theorem written_concat (actions : List Action) (action : Action) :
    written (actions ++ [action]) = written actions ++ written [action] :=
  List.filterMap_append

/-- One more action, by what it adds to the characters that are not synced. -/
theorem unsynced_concat (actions : List Action) (action : Action) :
    unsynced (actions ++ [action]) = countUnsynced (unsynced actions) action := by
  simp [unsynced]

theorem capacity_lt (bufferSize : UInt32) : capacity bufferSize < 2 ^ 32 :=
  Nat.lt_of_le_of_lt (Nat.sub_le _ _) (UInt32.toNat_lt _)

theorem toInt_of_lt {length : Nat} (h : length < 2 ^ 31) : toInt length = length := by
  have hLow : length % 2 ^ 32 = length := Nat.mod_eq_of_lt (by omega)
  simp only [toInt, hLow, h, ↓reduceIte]

/-- From 2^31 on a length is negative as an `int`. -/
theorem toInt_neg {length : Nat} (h : 2 ^ 31 ≤ length) (hBound : length < 2 ^ 32) : toInt length < 0 := by
  have hLow : length % 2 ^ 32 = length := Nat.mod_eq_of_lt hBound
  simp only [toInt, hLow, Nat.not_lt.mpr h, ↓reduceIte]
  omega

/-- The socket is open and no hang-up has been seen. -/
def Open (s : Stream bufferSize) : Prop := s.handle = true ∧ s.hangup = false

/-- The stream after its put area has been sent. -/
def flushed (s : Stream bufferSize) : Stream bufferSize where
  area := []
  fits := nil_fits bufferSize
  handle := s.handle
  hangup := s.hangup
  badbit := s.badbit
  passed := s.passed ++ [s.area]
  accepted := s.accepted ++ s.area

/-- A flush sends the put area unless its length is no `int`, and has no place
for the character that it is given. -/
theorem writeBase_open {s : Stream bufferSize} (hOpen : Open s) {send : Send}
    (hSend : ∀ bytes, send bytes = some bytes.length) (c : Int) :
    writeBase c send s = if s.area.length < 2 ^ 31 then some (c, flushed s) else none := by
  unfold writeBase
  rw [if_neg (by simp [hOpen.1]), if_neg (by simp [hOpen.2])]
  split_ifs with h
  · have hLength := toInt_of_lt h
    simp [hLength, hSend, flushed]
  · have hNeg := toInt_neg (Nat.not_lt.mp h) (Nat.lt_of_le_of_lt s.fits (capacity_lt bufferSize))
    simp [hNeg]

/-- `sync` of an open stream sends its area. -/
theorem sync_open {s : Stream bufferSize} (hOpen : Open s) {send : Send}
    (hSend : ∀ bytes, send bytes = some bytes.length) :
    step s (.sync send) = if s.area.length < 2 ^ 31 then some (flushed s) else none := by
  rw [step, sync, writeBase_open hOpen hSend]
  split_ifs <;> rfl

/-- The stream after a character has been stored. -/
def stored (c : UInt8) (s : Stream bufferSize) (h : s.area.length < capacity bufferSize) :
    Stream bufferSize :=
  { s with
    area := s.area ++ [c]
    fits := s.concat_fits c h }

/-- A character is stored where there is room. -/
theorem put_stores {s : Stream bufferSize} (h : s.area.length < capacity bufferSize)
    (hArray : s.area.length < allocated bufferSize) (c : UInt8) (send : Send) :
    step s (.put c send) = some (stored c s h) := by
  rw [step, sputc, dif_pos h, if_pos hArray]
  rfl

/-- A character either is stored, or has found the put area full and is gone
after the flush. -/
theorem put_cases {s t : Stream bufferSize} (hOpen : Open s) {c : UInt8} {send : Send}
    (hSend : ∀ bytes, send bytes = some bytes.length) (hStep : step s (.put c send) = some t) :
    (∃ h : s.area.length < capacity bufferSize, s.area.length < allocated bufferSize ∧
        t = stored c s h) ∨ t = flushed s := by
  by_cases h : s.area.length < capacity bufferSize
  · by_cases hArray : s.area.length < allocated bufferSize
    · rw [put_stores h hArray] at hStep
      exact .inl ⟨h, hArray, (Option.some.inj hStep).symm⟩
    · rw [step, sputc, dif_pos h, if_neg hArray] at hStep
      cases hStep
  · rw [step, sputc, dif_neg h, overflow, writeBase_open hOpen hSend] at hStep
    split_ifs at hStep
    · exact .inr (Option.some.inj hStep).symm
    · cases hStep

/-! ### Nothing is lost within the limit -/

/-- Everything written is in the put area or has been sent before it. -/
structure Holding (actions : List Action) (s : Stream bufferSize) : Prop where
  isOpen : Open s
  length : s.area.length = unsynced actions
  content : s.passed.flatten ++ s.area = written actions

theorem exists_holding {actions : List Action} (hComplete : ∀ action ∈ actions, action.Complete)
    (hShort : ∀ before, before <+: actions → unsynced before ≤ limit bufferSize) :
    ∃ s, Runs step (initialize_ bufferSize) actions s ∧ Holding actions s := by
  induction actions using List.reverseRecOn with
  | nil => exact ⟨_, Runs.nil, ⟨rfl, rfl⟩, rfl, rfl⟩
  | append_singleton actions action ih =>
      obtain ⟨s, run, hOpen, hLength, hContent⟩ :=
        ih (fun other hOther => hComplete other (List.mem_append_left _ hOther))
          fun before hBefore => hShort before (hBefore.trans (List.prefix_append _ _))
      have hSend := hComplete action (by simp)
      have hNow := hShort _ (List.prefix_refl _)
      have hBefore := hShort actions (List.prefix_append _ _)
      rw [unsynced_concat] at hNow
      cases action with
      | put c send =>
          simp only [countUnsynced, limit, ← hLength, le_min_iff] at hNow
          refine ⟨_, run.snoc (put_stores hNow.1.1 hNow.1.2 c send), hOpen, ?_, ?_⟩
          · rw [unsynced_concat, countUnsynced, ← hLength]
            exact List.length_append
          · rw [written_concat, ← hContent, List.append_assoc]
            rfl
      | sync send =>
          simp only [limit, ← hLength, le_min_iff] at hBefore
          have hStep := sync_open hOpen hSend
          rw [if_pos (by omega)] at hStep
          refine ⟨_, run.snoc hStep, hOpen, ?_, ?_⟩
          · rw [unsynced_concat]
            rfl
          · rw [written_concat, ← hContent]
            simp [flushed, written]

/-! ### Something is lost beyond it -/

/-- No more is sent or held than has been written. When it is no less either,
every character has found its place. -/
structure Accounted (actions : List Action) (s : Stream bufferSize) : Prop where
  isOpen : Open s
  account : s.passed.flatten.length + s.area.length ≤ (written actions).length
  exact_ : s.passed.flatten.length + s.area.length = (written actions).length →
    s.area.length = unsynced actions ∧ ∀ before, before <+: actions →
      unsynced before ≤ min (capacity bufferSize) (allocated bufferSize) ∧
        (unsynced before < 2 ^ 31 ∨ unsynced before ≤ s.area.length)

/-- One more action keeps the account of the characters. -/
theorem Accounted.step {actions : List Action} {s t : Stream bufferSize}
    (accounted : Accounted actions s) {action : Action} (hComplete : action.Complete)
    (hStep : step s action = some t) : Accounted (actions ++ [action]) t := by
  obtain ⟨hOpen, hAccount, hExact⟩ := accounted
  cases action with
  | put c send =>
      have hWritten : (written (actions ++ [.put c send])).length = (written actions).length + 1 := by
        rw [written_concat]
        exact List.length_append
      rcases put_cases hOpen hComplete hStep with ⟨h, hArray, rfl⟩ | rfl
      · have hArea : (stored c s h).area.length = s.area.length + 1 := List.length_append
        refine ⟨hOpen, ?_, fun hEq => ?_⟩
        · rw [hWritten, hArea]
          exact Nat.add_le_add_right hAccount 1
        · rw [hWritten, hArea] at hEq
          obtain ⟨hLength, hBefore⟩ := hExact (Nat.succ.inj hEq)
          rw [hArea, unsynced_concat, countUnsynced]
          refine ⟨by rw [hLength], fun before hPrefix => ?_⟩
          rcases List.prefix_concat_iff.mp hPrefix with rfl | hPrefix
          · rw [unsynced_concat, countUnsynced, ← hLength]
            exact ⟨le_min h hArray, .inr le_rfl⟩
          · obtain ⟨hFits, hSmall⟩ := hBefore before hPrefix
            exact ⟨hFits, hSmall.imp_right Nat.le_succ_of_le⟩
      · -- the flush has taken nothing for the new character
        have hFlushed : (flushed s).passed.flatten.length + (flushed s).area.length =
            s.passed.flatten.length + s.area.length := by simp [flushed]
        refine ⟨hOpen, ?_, fun hEq => ?_⟩
        · rw [hWritten, hFlushed]
          exact Nat.le_succ_of_le hAccount
        · rw [hWritten, hFlushed] at hEq
          omega
  | sync send =>
      have hWritten : written (actions ++ [.sync send]) = written actions := by
        rw [written_concat]
        exact List.append_nil _
      rw [sync_open hOpen hComplete] at hStep
      split_ifs at hStep with hSmall
      · cases hStep
        have hFlushed : (flushed s).passed.flatten.length + (flushed s).area.length =
            s.passed.flatten.length + s.area.length := by simp [flushed]
        refine ⟨hOpen, by rw [hWritten, hFlushed]; exact hAccount, fun hEq => ?_⟩
        rw [hWritten, hFlushed] at hEq
        obtain ⟨hLength, hBefore⟩ := hExact hEq
        rw [unsynced_concat]
        refine ⟨rfl, fun before hPrefix => ?_⟩
        rcases List.prefix_concat_iff.mp hPrefix with rfl | hPrefix
        · rw [unsynced_concat]
          exact ⟨Nat.zero_le _, .inr (Nat.zero_le _)⟩
        · obtain ⟨hFits, hBelow⟩ := hBefore before hPrefix
          exact ⟨hFits, .inl (by omega)⟩

/-- After every run of complete actions the account of the characters holds. -/
theorem accounted_of_runs {actions : List Action} (hComplete : ∀ action ∈ actions, action.Complete)
    {s : Stream bufferSize} (run : Runs step (initialize_ bufferSize) actions s) :
    Accounted actions s := by
  induction run with
  | nil =>
      refine ⟨⟨rfl, rfl⟩, le_rfl, fun _ => ⟨rfl, fun before hPrefix => ?_⟩⟩
      rw [List.prefix_nil.mp hPrefix]
      exact ⟨Nat.zero_le _, .inl (by decide)⟩
  | snoc prior last ih =>
      exact (ih fun action hMem => hComplete action (List.mem_append_left _ hMem)).step
        (hComplete _ (by simp)) last

/-- When every byte has reached the socket, no more characters than the limit
have come between two calls of `sync()`. -/
theorem unsynced_le_of_conserved {actions : List Action} {send : Send}
    (hComplete : ∀ action ∈ actions ++ [.sync send], action.Complete)
    (h : Conserved bufferSize (actions ++ [.sync send])) {before : List Action}
    (hPrefix : before <+: actions) : unsynced before ≤ limit bufferSize := by
  obtain ⟨t, run, hContent⟩ := h
  obtain ⟨s, prior, hStep⟩ := run.last
  have hOthers : ∀ action ∈ actions, action.Complete := fun action hMem =>
    hComplete action (List.mem_append_left _ hMem)
  have hLast : (Action.sync send).Complete := hComplete _ (by simp)
  obtain ⟨hOpen, hAccount, hExact⟩ := accounted_of_runs hOthers prior
  rw [sync_open hOpen hLast] at hStep
  split_ifs at hStep with hSmall
  cases hStep
  have hWritten : written (actions ++ [.sync send]) = written actions := by
    rw [written_concat]
    exact List.append_nil _
  have hLength : s.passed.flatten.length + s.area.length = (written actions).length := by
    rw [← hWritten, ← hContent]
    simp [flushed]
  obtain ⟨hFits, hBelow⟩ := (hExact hLength).2 before hPrefix
  exact le_min hFits (by omega)

/-- The exact sequences of writes and calls of `sync()`, the last one included,
of which every byte reaches the socket in order: those in which no more
characters come between two of these calls than the put area takes. -/
theorem conserved_iff (bufferSize : UInt32) (actions : List Action) (send : Send)
    (hComplete : ∀ action ∈ actions ++ [.sync send], action.Complete) :
    Conserved bufferSize (actions ++ [.sync send]) ↔
      ∀ before, before <+: actions → unsynced before ≤ limit bufferSize := by
  constructor
  · intro h before hPrefix
    exact unsynced_le_of_conserved hComplete h hPrefix
  · intro hShort
    obtain ⟨s, run, holding⟩ := exists_holding hComplete fun before hPrefix => by
      rcases List.prefix_concat_iff.mp hPrefix with rfl | hPrefix
      · rw [unsynced_concat]
        exact Nat.zero_le _
      · exact hShort before hPrefix
    refine ⟨s, run, ?_⟩
    have hEmpty : s.area = [] := by
      rw [← List.length_eq_zero_iff, holding.length, unsynced_concat]
      rfl
    rw [← holding.content, hEmpty, List.append_nil]

theorem unsynced_replicate (count : Nat) (c : UInt8) (send : Send) :
    unsynced (List.replicate count (.put c send)) = count := by
  induction count with
  | zero => rfl
  | succ count ih => rw [List.replicate_succ', unsynced_concat, ih, countUnsynced]

/-- A `send` that always succeeds in full. -/
def sendAll : Send := fun bytes => some bytes.length

/-- 256 characters through a stream of the default size: the last one finds the
put area full and is never sent. -/
theorem default_size_not_conserved :
    (∀ action ∈ List.replicate 256 (Action.put 0x41 sendAll) ++ [.sync sendAll], action.Complete) ∧
      ¬ Conserved 256 (List.replicate 256 (Action.put 0x41 sendAll) ++ [.sync sendAll]) := by
  have hComplete : ∀ action ∈ List.replicate 256 (Action.put 0x41 sendAll) ++ [.sync sendAll],
      action.Complete := by
    intro action hMem
    rcases List.mem_append.mp hMem with hMem | hMem
    · rw [List.eq_of_mem_replicate hMem]
      exact fun _ => rfl
    · rw [List.mem_singleton.mp hMem]
      exact fun _ => rfl
  refine ⟨hComplete, fun h => ?_⟩
  have hLimit := unsynced_le_of_conserved hComplete h (List.prefix_refl _)
  have hDefault : limit 256 = 255 := rfl
  rw [unsynced_replicate] at hLimit
  omega

/-- Within the limit the characters arrive, here across two flushes. -/
theorem conserved_iff_short :
    Conserved 256 ([.put 0x41 sendAll, .sync sendAll, .put 0x42 sendAll] ++ [.sync sendAll]) ↔
      ∀ before, before <+: [.put 0x41 sendAll, .sync sendAll, .put 0x42 sendAll] →
        unsynced before ≤ limit 256 :=
  conserved_iff 256 _ sendAll (by simp [Action.Complete, sendAll])

end ImpactSockets.SocketStream
