import Mathlib.Algebra.Group.Nat.Defs
import Mathlib.Data.List.Basic
import ImpactSockets.Utils.AbnfOps

/-! The reader of netlink replies of `networking.cpp`. Each call of `recv` takes one
datagram, and what does not fit in the range it is given is lost. -/
namespace ImpactSockets.Networking

def NLMSG_ERROR : UInt16 := 2
def NLMSG_DONE : UInt16 := 3
def NLM_F_MULTI : UInt16 := 2

/-- What is stored at an offset from where `__buffer` points at the call. -/
abbrev Memory := Nat → UInt8

/-- The bytes are copied to the offset. -/
def Memory.store (memory : Memory) (offset : Nat) (bytes : Bytes) : Memory := fun i =>
  if offset ≤ i then bytes.getD (i - offset) (memory i) else memory i

def Memory.uint16 (memory : Memory) (offset : Nat) : UInt16 :=
  (memory offset).toUInt16 ||| (memory (offset + 1)).toUInt16 <<< 8

def Memory.uint32 (memory : Memory) (offset : Nat) : UInt32 :=
  (memory offset).toUInt32 ||| (memory (offset + 1)).toUInt32 <<< 8 |||
    (memory (offset + 2)).toUInt32 <<< 16 ||| (memory (offset + 3)).toUInt32 <<< 24

/-- `struct nlmsghdr`. -/
structure NetlinkHeader where
  len : UInt32
  type : UInt16
  flags : UInt16
  seq : UInt32
  pid : UInt32
deriving DecidableEq, Repr

/-- The header that the cast to `nlmsghdr*` finds. -/
def NetlinkHeader.read (memory : Memory) (offset : Nat) : NetlinkHeader where
  len := memory.uint32 offset
  type := memory.uint16 (offset + 4)
  flags := memory.uint16 (offset + 6)
  seq := memory.uint32 (offset + 8)
  pid := memory.uint32 (offset + 12)

/-- `NLMSG_OK`. -/
def NetlinkHeader.Ok (h : NetlinkHeader) (received : Nat) : Prop :=
  16 ≤ received ∧ 16 ≤ h.len.toNat ∧ h.len.toNat ≤ received

instance (h : NetlinkHeader) (received : Nat) : Decidable (h.Ok received) :=
  inferInstanceAs (Decidable (_ ∧ _ ∧ _))

/-- How a call ends. Without another datagram it waits in `recv`. -/
inductive Reading where
  | returned (length : Nat)
  | threw (text : String)
  | waiting
deriving DecidableEq, Repr

/-- The memory, `__buffer` as it moves, `message_length`, and the ranges that were passed
to `recv`, as offsets and lengths. -/
structure Reader where
  memory : Memory
  buffer : Nat
  messageLength : Nat
  ranges : List (Nat × Nat)

/-- The length that arrives at `::recv`: the difference of `unsigned int`s is passed
through the `int` of `basic_socket::recv` to a `size_t`. -/
def receiveSize (bufferLength : UInt32) (messageLength : Nat) : Nat :=
  (bufferLength - UInt32.ofNat messageLength).toInt32.toInt64.toUInt64.toNat

variable (bufferLength sequence pid : UInt32)

/-- One turn of the loop with the datagram that `recv` finds: how the call ends, unless the
loop goes on. -/
def readDatagram (r : Reader) (datagram : Bytes) : Reader × Option Reading :=
  let size := receiveSize bufferLength r.messageLength
  let received := datagram.take size
  let memory := r.memory.store r.buffer received
  let header := NetlinkHeader.read memory r.buffer
  let r := { r with memory, ranges := r.ranges ++ [(r.buffer, size)] }
  if ¬header.Ok received.length then (r, some (.threw "Netlink Error: Corrupt Message"))
  else if header.type = NLMSG_ERROR then
    (r, some (.threw ("Netlink Error: " ++ toString (memory.uint32 (r.buffer + 16)).toInt32.toInt)))
  else if header.type = NLMSG_DONE then (r, some (.returned r.messageLength))
  else
    let r := { r with buffer := r.buffer + received.length, messageLength := r.messageLength + received.length }
    if header.flags &&& NLM_F_MULTI = 0 then (r, some (.returned r.messageLength))
    else if header.seq ≠ sequence ∨ header.pid ≠ pid then (r, none)
    else (r, some (.returned r.messageLength))

/-- The loop, with the datagrams that are there or still to come. -/
def readDatagrams (r : Reader) : List Bytes → Reader × Reading
  | [] => ({ r with ranges := r.ranges ++ [(r.buffer, receiveSize bufferLength r.messageLength)] }, .waiting)
  | datagram :: datagrams =>
      match readDatagram bufferLength sequence pid r datagram with
      | (r, some reading) => (r, reading)
      | (r, none) => readDatagrams r datagrams

def readNetlinkSocket (memory : Memory) (datagrams : List Bytes) : Reader × Reading :=
  readDatagrams bufferLength sequence pid ⟨memory, 0, 0, []⟩ datagrams

/-! ### One datagram -/

variable {bufferLength sequence pid}

/-- A difference from 2^31 on is negative as an `int` and grows when it is extended. -/
theorem receiveSize_toNat (messageLength : Nat) :
    receiveSize bufferLength messageLength = (bufferLength - UInt32.ofNat messageLength).toNat +
      if 2 ^ 31 ≤ (bufferLength - UInt32.ofNat messageLength).toNat then 2 ^ 64 - 2 ^ 32 else 0 := by
  have hExtend : receiveSize bufferLength messageLength =
      ((bufferLength - UInt32.ofNat messageLength).toBitVec.signExtend 64).toNat := rfl
  generalize bufferLength - UInt32.ofNat messageLength = difference at hExtend ⊢
  rw [hExtend, BitVec.toNat_signExtend, BitVec.msb_eq_decide]
  simp

/-- Below 2^31 the size that is passed on is the room that is left. -/
theorem receiveSize_eq {messageLength : Nat} (hSmall : bufferLength.toNat < 2 ^ 31)
    (hRoom : messageLength ≤ bufferLength.toNat) :
    receiveSize bufferLength messageLength = bufferLength.toNat - messageLength := by
  have hLength : (UInt32.ofNat messageLength).toNat = messageLength :=
    UInt32.toNat_ofNat_of_lt' (hRoom.trans_lt bufferLength.toNat_lt)
  have hSub : (bufferLength - UInt32.ofNat messageLength).toNat = bufferLength.toNat - messageLength := by
    rw [UInt32.toNat_sub_of_le, hLength]
    rwa [UInt32.le_iff_toNat_le, hLength]
  rw [receiveSize_toNat, hSub, if_neg (by omega), Nat.add_zero]

/-- From 2^31 on the sign is extended, and the size exceeds the buffer. -/
theorem lt_receiveSize (hLarge : 2 ^ 31 ≤ bufferLength.toNat) : bufferLength.toNat < receiveSize bufferLength 0 := by
  have hSub : bufferLength - UInt32.ofNat 0 = bufferLength := by simp
  rw [receiveSize_toNat, hSub, if_pos hLarge]
  omega

/-- A store leaves what stands in front of it. -/
theorem Memory.store_of_lt (memory : Memory) (bytes : Bytes) {offset i : Nat} (h : i < offset) :
    memory.store offset bytes i = memory i := if_neg (by omega)

/-- What has been stored is there. -/
theorem Memory.store_add (memory : Memory) (bytes : Bytes) (offset : Nat) {i : Nat} (h : i < bytes.length) :
    memory.store offset bytes (offset + i) = bytes[i] := by
  simp [Memory.store, h]

/-- The header in front of a datagram. -/
def header (datagram : Bytes) : NetlinkHeader := .read (Memory.store (fun _ => 0) 0 datagram) 0

/-- The header of a stored datagram is its own. -/
theorem read_store (memory : Memory) {datagram : Bytes} (offset : Nat) (h : 16 ≤ datagram.length) :
    NetlinkHeader.read (memory.store offset datagram) offset = header datagram := by
  have hByte : ∀ i < 16, memory.store offset datagram (offset + i) = Memory.store (fun _ => 0) 0 datagram i := by
    intro i hi
    have hi : i < datagram.length := by omega
    rw [Memory.store_add memory datagram offset hi, ← Memory.store_add (fun _ => 0) datagram 0 hi, Nat.zero_add]
  have h0 := hByte 0 (by decide)
  rw [Nat.add_zero] at h0
  simp only [header, NetlinkHeader.read, Memory.uint32, Memory.uint16, Nat.add_assoc, Nat.reduceAdd, Nat.zero_add]
  simp (disch := decide) only [hByte, h0]

/-- The datagram begins with a whole message. -/
def WellFormed (datagram : Bytes) : Prop := (header datagram).Ok datagram.length

/-- The message has the number and the process that the caller asked for. -/
def Matches (sequence pid : UInt32) (datagram : Bytes) : Prop :=
  (header datagram).seq = sequence ∧ (header datagram).pid = pid

instance : DecidablePred (Matches sequence pid) := fun _ => inferInstanceAs (Decidable (_ ∧ _))

/-- The reader after a datagram that fits and is kept. -/
def Reader.keep (bufferLength : UInt32) (r : Reader) (datagram : Bytes) : Reader where
  memory := r.memory.store r.buffer datagram
  buffer := r.buffer + datagram.length
  messageLength := r.messageLength + datagram.length
  ranges := r.ranges ++ [(r.buffer, bufferLength.toNat - r.messageLength)]

/-- The datagram fits in what is left of the buffer and has a header. -/
structure Room (bufferLength : UInt32) (r : Reader) (datagram : Bytes) : Prop where
  small : bufferLength.toNat < 2 ^ 31
  fits : r.messageLength + datagram.length ≤ bufferLength.toNat
  header : 16 ≤ datagram.length

variable {r : Reader} {datagram : Bytes}

theorem Room.size_eq (room : Room bufferLength r datagram) :
    receiveSize bufferLength r.messageLength = bufferLength.toNat - r.messageLength :=
  receiveSize_eq room.small (Nat.le_of_add_right_le room.fits)

/-- A datagram that has room is stored whole. -/
theorem Room.take_eq (room : Room bufferLength r datagram) :
    datagram.take (bufferLength.toNat - r.messageLength) = datagram :=
  List.take_of_length_le (Nat.le_sub_of_add_le' room.fits)

/-- A datagram that is not well formed ends the reading with an exception. -/
theorem readDatagram_corrupt (room : Room bufferLength r datagram) (h : ¬WellFormed datagram) :
    (readDatagram bufferLength sequence pid r datagram).2 = some (.threw "Netlink Error: Corrupt Message") := by
  have hOk : ¬(header datagram).Ok datagram.length := h
  simp only [readDatagram, room.size_eq, room.take_eq, read_store _ _ room.header, if_pos hOk]

/-- An error message ends the reading with an exception, whatever its text. -/
theorem readDatagram_error (room : Room bufferLength r datagram) (h : (header datagram).type = NLMSG_ERROR) :
    ∃ text, (readDatagram bufferLength sequence pid r datagram).2 = some (.threw text) := by
  by_cases hOk : (header datagram).Ok datagram.length
  · simp only [readDatagram, room.size_eq, room.take_eq, read_store _ _ room.header, hOk, not_true, if_false, h, if_true]
    exact ⟨_, rfl⟩
  · exact ⟨_, readDatagram_corrupt room hOk⟩

/-- The end of a dump ends the reading with the length so far. -/
theorem readDatagram_done (room : Room bufferLength r datagram) (hOk : WellFormed datagram)
    (h : (header datagram).type = NLMSG_DONE) :
    (readDatagram bufferLength sequence pid r datagram).2 = some (.returned r.messageLength) ∧
      (readDatagram bufferLength sequence pid r datagram).1.memory = r.memory.store r.buffer datagram := by
  have hOk : (header datagram).Ok datagram.length := hOk
  have hError : NLMSG_DONE ≠ NLMSG_ERROR := by decide
  simp only [readDatagram, room.size_eq, room.take_eq, read_store _ _ room.header]
  simp only [hOk, not_true, if_false, h, if_neg hError, if_true, and_self]

/-- A message of a multipart reply is kept, and the loop goes on if it does not match. -/
theorem readDatagram_data (room : Room bufferLength r datagram) (hOk : WellFormed datagram)
    (hError : (header datagram).type ≠ NLMSG_ERROR) (hDone : (header datagram).type ≠ NLMSG_DONE)
    (hMulti : (header datagram).flags &&& NLM_F_MULTI ≠ 0) :
    readDatagram bufferLength sequence pid r datagram = (r.keep bufferLength datagram,
      if Matches sequence pid datagram then some (.returned (r.messageLength + datagram.length)) else none) := by
  have hOk : (header datagram).Ok datagram.length := hOk
  by_cases hMatches : Matches sequence pid datagram
  · have hTest : ¬((header datagram).seq ≠ sequence ∨ (header datagram).pid ≠ pid) := by
      simpa [Matches] using hMatches
    simp only [readDatagram, room.size_eq, room.take_eq, read_store _ _ room.header]
    simp only [hOk, not_true, if_false, if_neg hError, if_neg hDone, if_neg hMulti, if_neg hTest, if_pos hMatches]
    rfl
  · have hTest : (header datagram).seq ≠ sequence ∨ (header datagram).pid ≠ pid := not_and_or.mp hMatches
    simp only [readDatagram, room.size_eq, room.take_eq, read_store _ _ room.header]
    simp only [hOk, not_true, if_false, if_neg hError, if_neg hDone, if_neg hMulti, if_pos hTest, if_neg hMatches]
    rfl

/-! ### The loop -/

/-- The reading ends at this datagram. -/
theorem readDatagrams_of_some {reading : Reading} {datagrams : List Bytes}
    (h : (readDatagram bufferLength sequence pid r datagram).2 = some reading) :
    readDatagrams bufferLength sequence pid r (datagram :: datagrams) =
      ((readDatagram bufferLength sequence pid r datagram).1, reading) := by
  rw [readDatagrams]
  split
  · next r' reading' hRead =>
      rw [hRead] at h ⊢
      rw [Option.some.inj h]
  · next r' hRead =>
      rw [hRead] at h
      cases h

/-- The reading goes on behind this datagram. -/
theorem readDatagrams_of_none {datagrams : List Bytes}
    (h : (readDatagram bufferLength sequence pid r datagram).2 = none) :
    readDatagrams bufferLength sequence pid r (datagram :: datagrams) =
      readDatagrams bufferLength sequence pid (readDatagram bufferLength sequence pid r datagram).1 datagrams := by
  rw [readDatagrams]
  split
  · next r' reading' hRead =>
      rw [hRead] at h
      cases h
  · next r' hRead => rw [hRead]

/-- The ranges lie in the buffer, and `__buffer` has moved by what has been read. -/
structure InBounds (bufferLength : UInt32) (r : Reader) : Prop where
  inStep : r.buffer = r.messageLength
  room : r.messageLength ≤ bufferLength.toNat
  ranges : ∀ range ∈ r.ranges, range.1 + range.2 ≤ bufferLength.toNat

/-- One call of `recv` stays inside the buffer. -/
theorem readDatagram_inBounds (hSmall : bufferLength.toNat < 2 ^ 31) (h : InBounds bufferLength r) :
    InBounds bufferLength (readDatagram bufferLength sequence pid r datagram).1 := by
  have hInStep := h.inStep
  have hRoom := h.room
  have hRanges : ∀ range ∈ r.ranges ++ [(r.buffer, receiveSize bufferLength r.messageLength)],
      range.1 + range.2 ≤ bufferLength.toNat := by
    intro range hMem
    rcases List.mem_append.mp hMem with hMem | hMem
    · exact h.ranges range hMem
    · rw [List.mem_singleton.mp hMem, receiveSize_eq hSmall hRoom]
      omega
  have hReceived : (datagram.take (receiveSize bufferLength r.messageLength)).length ≤
      bufferLength.toNat - r.messageLength := by
    rw [receiveSize_eq hSmall hRoom]
    exact List.length_take_le _ _
  simp only [readDatagram]
  split_ifs <;> refine ⟨?_, ?_, hRanges⟩ <;> dsimp only <;> omega

/-- All calls of `recv` stay inside the buffer, by induction on the datagrams. -/
theorem readDatagrams_inBounds (hSmall : bufferLength.toNat < 2 ^ 31) (datagrams : List Bytes)
    (h : InBounds bufferLength r) :
    ∀ range ∈ (readDatagrams bufferLength sequence pid r datagrams).1.ranges,
      range.1 + range.2 ≤ bufferLength.toNat := by
  induction datagrams generalizing r with
  | nil =>
      intro range hMem
      rcases List.mem_append.mp hMem with hMem | hMem
      · exact h.ranges range hMem
      · have hInStep := h.inStep
        have hRoom := h.room
        rw [List.mem_singleton.mp hMem, receiveSize_eq hSmall hRoom]
        omega
  | cons datagram datagrams ih =>
      have hNext := @readDatagram_inBounds bufferLength sequence pid r datagram hSmall h
      cases hRead : (readDatagram bufferLength sequence pid r datagram).2 with
      | none =>
          rw [readDatagrams_of_none hRead]
          exact ih hNext
      | some reading =>
          rw [readDatagrams_of_some hRead]
          exact hNext.ranges

/-- Each call of `recv` writes one range. -/
theorem readDatagram_ranges :
    (readDatagram bufferLength sequence pid r datagram).1.ranges =
      r.ranges ++ [(r.buffer, receiveSize bufferLength r.messageLength)] := by
  simp only [readDatagram]
  split_ifs <;> rfl

/-- The ranges that were written stay on record. -/
theorem subset_ranges (datagrams : List Bytes) :
    r.ranges ⊆ (readDatagrams bufferLength sequence pid r datagrams).1.ranges := by
  induction datagrams generalizing r with
  | nil => exact List.subset_append_left _ _
  | cons datagram datagrams ih =>
      have hOnce : r.ranges ⊆ (readDatagram bufferLength sequence pid r datagram).1.ranges := by
        rw [readDatagram_ranges]
        exact List.subset_append_left _ _
      cases hRead : (readDatagram bufferLength sequence pid r datagram).2 with
      | none =>
          rw [readDatagrams_of_none hRead]
          exact List.Subset.trans hOnce ih
      | some reading =>
          rw [readDatagrams_of_some hRead]
          exact hOnce

/-- The first call of `recv` has the whole buffer. -/
theorem mem_ranges (datagrams : List Bytes) :
    (r.buffer, receiveSize bufferLength r.messageLength) ∈
      (readDatagrams bufferLength sequence pid r datagrams).1.ranges := by
  cases datagrams with
  | nil => simp [readDatagrams]
  | cons datagram datagrams =>
      have hOnce : (r.buffer, receiveSize bufferLength r.messageLength) ∈
          (readDatagram bufferLength sequence pid r datagram).1.ranges := by simp [readDatagram_ranges]
      cases hRead : (readDatagram bufferLength sequence pid r datagram).2 with
      | none =>
          rw [readDatagrams_of_none hRead]
          exact subset_ranges _ hOnce
      | some reading =>
          rw [readDatagrams_of_some hRead]
          exact hOnce

/-- What has been read stays where it is. -/
theorem readDatagrams_memory_of_lt (datagrams : List Bytes) {i : Nat} (h : i < r.buffer) :
    (readDatagrams bufferLength sequence pid r datagrams).1.memory i = r.memory i := by
  induction datagrams generalizing r with
  | nil => rfl
  | cons datagram datagrams ih =>
      have hStore : (readDatagram bufferLength sequence pid r datagram).1.memory i = r.memory i := by
        simp only [readDatagram]
        split_ifs <;> exact Memory.store_of_lt _ _ h
      have hBuffer : r.buffer ≤ (readDatagram bufferLength sequence pid r datagram).1.buffer := by
        simp only [readDatagram]
        split_ifs <;> simp
      cases hRead : (readDatagram bufferLength sequence pid r datagram).2 with
      | none => rw [readDatagrams_of_none hRead, ih (h.trans_le hBuffer), hStore]
      | some reading => rw [readDatagrams_of_some hRead, hStore]

/-- The headers of a multipart reply. -/
structure Multipart (data : List Bytes) (done : Bytes) : Prop where
  header : ∀ datagram ∈ data ++ [done], 16 ≤ datagram.length ∧ (header datagram).flags &&& NLM_F_MULTI ≠ 0
  data : ∀ datagram ∈ data, (Networking.header datagram).type ≠ NLMSG_DONE
  done : (Networking.header done).type = NLMSG_DONE

/-- Every datagram holds a message that is no error, and the loop gets to the last one: only
the datagram in front of the last may match. -/
structure ReadsToEnd (sequence pid : UInt32) (data : List Bytes) (done : Bytes) : Prop where
  sound : ∀ datagram ∈ data, WellFormed datagram ∧ (header datagram).type ≠ NLMSG_ERROR
  early : ∀ datagram ∈ data.dropLast, ¬Matches sequence pid datagram
  reached : WellFormed done ∨ ∃ datagram ∈ data.getLast?, Matches sequence pid datagram

variable {data : List Bytes} {done : Bytes}

/-- The rest of a dump is a dump. -/
theorem Multipart.tail (multi : Multipart (datagram :: data) done) : Multipart data done where
  header := fun d hMem => multi.header d (List.mem_cons_of_mem _ hMem)
  data := fun d hMem => multi.data d (List.mem_cons_of_mem _ hMem)
  done := multi.done

/-- Where only the end is left, it has to be well formed. -/
theorem readsToEnd_nil : ReadsToEnd sequence pid [] done ↔ WellFormed done := by
  constructor
  · intro h
    simpa using h.reached
  · intro h
    exact ⟨by simp, by simp, .inl h⟩

/-- A datagram that matches ends the reading, so it has to be the last one. -/
theorem readsToEnd_of_matches (hMatches : Matches sequence pid datagram) :
    ReadsToEnd sequence pid (datagram :: data) done ↔
      WellFormed datagram ∧ (header datagram).type ≠ NLMSG_ERROR ∧ data = [] := by
  constructor
  · intro h
    obtain ⟨hOk, hError⟩ := h.sound datagram List.mem_cons_self
    refine ⟨hOk, hError, ?_⟩
    by_contra hData
    exact h.early datagram (by simp [List.dropLast_cons_of_ne_nil hData]) hMatches
  · rintro ⟨hOk, hError, rfl⟩
    exact ⟨by simp [hOk, hError], by simp, .inr (by simpa using hMatches)⟩

/-- A datagram that does not match leaves the reading to the rest. -/
theorem readsToEnd_of_not_matches (hMatches : ¬Matches sequence pid datagram) :
    ReadsToEnd sequence pid (datagram :: data) done ↔
      WellFormed datagram ∧ (header datagram).type ≠ NLMSG_ERROR ∧ ReadsToEnd sequence pid data done := by
  cases data with
  | nil =>
      rw [readsToEnd_nil]
      constructor
      · intro h
        obtain ⟨hOk, hError⟩ := h.sound datagram List.mem_cons_self
        exact ⟨hOk, hError, by simpa [hMatches] using h.reached⟩
      · rintro ⟨hOk, hError, hDone⟩
        exact ⟨by simp [hOk, hError], by simp, .inl hDone⟩
  | cons next data =>
      constructor
      · intro h
        obtain ⟨hOk, hError⟩ := h.sound datagram List.mem_cons_self
        refine ⟨hOk, hError, fun d hMem => h.sound d (List.mem_cons_of_mem _ hMem), fun d hMem => ?_, by
          simpa using h.reached⟩
        exact h.early d (by simp [hMem])
      · rintro ⟨hOk, hError, h⟩
        refine ⟨?_, ?_, by simpa using h.reached⟩
        · intro d hMem
          rcases List.mem_cons.mp hMem with rfl | hMem
          · exact ⟨hOk, hError⟩
          · exact h.sound d hMem
        · intro d hMem
          rcases List.mem_cons.mp (by simpa using hMem) with rfl | hMem
          · exact hMatches
          · exact h.early d hMem

/-- The first message of a reply that fits in what is left of the buffer. -/
theorem Multipart.room (multi : Multipart (datagram :: data) done) (hSmall : bufferLength.toNat < 2 ^ 31)
    (hFits : r.messageLength + (datagram :: data ++ [done]).flatten.length ≤ bufferLength.toNat) :
    Room bufferLength r datagram where
  small := hSmall
  fits := by
    simp at hFits
    omega
  header := (multi.header datagram (by simp)).1

/-- The last datagram of a dump. -/
theorem readDatagrams_done (multi : Multipart [] done) (room : Room bufferLength r done) :
    (readDatagrams bufferLength sequence pid r [done]).2 = .returned r.messageLength ↔ WellFormed done := by
  by_cases hOk : WellFormed done
  · rw [readDatagrams_of_some (readDatagram_done room hOk multi.done).1]
    simp [hOk]
  · rw [readDatagrams_of_some (readDatagram_corrupt room hOk)]
    simp [hOk]

/-- A reply is returned in full exactly if the loop gets to its end. The induction is on
the messages that are still to come. -/
theorem readDatagrams_eq_returned_iff (multi : Multipart data done) (hSmall : bufferLength.toNat < 2 ^ 31)
    (hFits : r.messageLength + (data ++ [done]).flatten.length ≤ bufferLength.toNat) :
    (readDatagrams bufferLength sequence pid r (data ++ [done])).2 =
        .returned (r.messageLength + data.flatten.length) ↔ ReadsToEnd sequence pid data done := by
  induction data generalizing r with
  | nil =>
      rw [readsToEnd_nil]
      exact readDatagrams_done multi ⟨hSmall, by simpa using hFits, (multi.header done (by simp)).1⟩
  | cons datagram data ih =>
      have room := multi.room hSmall hFits
      have hSum : r.messageLength + datagram.length + (data ++ [done]).flatten.length ≤ bufferLength.toNat := by
        simpa [Nat.add_assoc] using hFits
      by_cases hOk : WellFormed datagram
      swap
      · rw [List.cons_append, readDatagrams_of_some (readDatagram_corrupt room hOk)]
        exact ⟨fun h => (by cases h), fun h => absurd (h.sound datagram List.mem_cons_self).1 hOk⟩
      by_cases hError : (header datagram).type = NLMSG_ERROR
      · obtain ⟨text, hText⟩ := @readDatagram_error bufferLength sequence pid r datagram room hError
        rw [List.cons_append, readDatagrams_of_some hText]
        exact ⟨fun h => (by cases h), fun h => absurd hError (h.sound datagram List.mem_cons_self).2⟩
      have hRead := @readDatagram_data bufferLength sequence pid r datagram room hOk hError
        (multi.data datagram List.mem_cons_self) (multi.header datagram (by simp)).2
      by_cases hMatches : Matches sequence pid datagram
      · -- The loop ends here, and every message behind this one has a length.
        rw [if_pos hMatches] at hRead
        rw [readsToEnd_of_matches hMatches, List.cons_append, readDatagrams_of_some (by rw [hRead])]
        cases data with
        | nil => simp [hOk, hError]
        | cons next data =>
            have hNext := (multi.tail.header next (by simp)).1
            constructor
            · intro hReturned
              have hLengths := Reading.returned.inj hReturned
              simp only [List.flatten_cons, List.length_append] at hLengths
              omega
            · rintro ⟨-, -, hNil⟩
              cases hNil
      · rw [if_neg hMatches] at hRead
        rw [readsToEnd_of_not_matches hMatches, List.cons_append, readDatagrams_of_none (by rw [hRead]), hRead]
        have hNext := @ih (r.keep bufferLength datagram) multi.tail hSum
        simp only [hOk, hError, true_and, ne_eq, not_false_eq_true, ← hNext]
        simp [Reader.keep, Nat.add_assoc]

/-- The bytes of a reply that is returned in full. -/
theorem readDatagrams_memory (multi : Multipart data done) (hSmall : bufferLength.toNat < 2 ^ 31)
    (hFits : r.messageLength + (data ++ [done]).flatten.length ≤ bufferLength.toNat)
    (h : ReadsToEnd sequence pid data done) {i : Nat} (hi : i < data.flatten.length) :
    (readDatagrams bufferLength sequence pid r (data ++ [done])).1.memory (r.buffer + i) = data.flatten[i] := by
  induction data generalizing r i with
  | nil => simp at hi
  | cons datagram data ih =>
      have room := multi.room hSmall hFits
      have hSum : r.messageLength + datagram.length + (data ++ [done]).flatten.length ≤ bufferLength.toNat := by
        simpa [Nat.add_assoc] using hFits
      obtain ⟨hOk, hError⟩ := h.sound datagram List.mem_cons_self
      have hRead := @readDatagram_data bufferLength sequence pid r datagram room hOk hError
        (multi.data datagram List.mem_cons_self) (multi.header datagram (by simp)).2
      have hHere : ∀ k (hk : k < datagram.length),
          (r.keep bufferLength datagram).memory (r.buffer + k) = datagram[k] := fun k hk =>
        Memory.store_add r.memory datagram r.buffer hk
      rw [List.cons_append]
      by_cases hMatches : Matches sequence pid datagram
      · rw [if_pos hMatches] at hRead
        obtain ⟨-, -, rfl⟩ := (readsToEnd_of_matches hMatches).mp h
        rw [readDatagrams_of_some (by rw [hRead]), hRead]
        simpa using hHere i (by simpa using hi)
      · rw [if_neg hMatches] at hRead
        obtain ⟨-, -, hRest⟩ := (readsToEnd_of_not_matches hMatches).mp h
        rw [readDatagrams_of_none (by rw [hRead]), hRead]
        rcases Nat.lt_or_ge i datagram.length with hi' | hi'
        · rw [readDatagrams_memory_of_lt _ (by simp [Reader.keep]; omega), hHere i hi']
          simp [List.getElem_append_left hi']
        · obtain ⟨k, rfl⟩ := Nat.exists_eq_add_of_le hi'
          have hk : k < data.flatten.length := by simpa using hi
          have hNext := @ih (r.keep bufferLength datagram) multi.tail hSum hRest k hk
          simpa [Reader.keep, Nat.add_assoc] using hNext

/-! ### Multipart replies -/

/-- The call returns all of a multipart reply that fits, and never reads past the buffer. -/
def Gathers (bufferLength sequence pid : UInt32) (memory : Memory) (datagrams : List Bytes) : Prop :=
  (∀ data done, datagrams = data ++ [done] → Multipart data done →
      datagrams.flatten.length ≤ bufferLength.toNat →
      (readNetlinkSocket bufferLength sequence pid memory datagrams).2 = .returned data.flatten.length ∧
        ∀ i (hi : i < data.flatten.length),
          (readNetlinkSocket bufferLength sequence pid memory datagrams).1.memory i = data.flatten[i]) ∧
    ∀ range ∈ (readNetlinkSocket bufferLength sequence pid memory datagrams).1.ranges,
      range.1 + range.2 ≤ bufferLength.toNat

/-- The reader gathers every multipart reply and keeps to the buffer exactly if the length
is an `int` and the replies do not match before their end. -/
theorem gathers_iff (bufferLength sequence pid : UInt32) (memory : Memory) (datagrams : List Bytes) :
    Gathers bufferLength sequence pid memory datagrams ↔
      bufferLength.toNat < 2 ^ 31 ∧ ∀ data done, datagrams = data ++ [done] → Multipart data done →
        datagrams.flatten.length ≤ bufferLength.toNat → ReadsToEnd sequence pid data done := by
  unfold Gathers readNetlinkSocket
  constructor
  · rintro ⟨hReplies, hRanges⟩
    have hSmall : bufferLength.toNat < 2 ^ 31 := by
      by_contra hLarge
      have hFirst := hRanges _ (mem_ranges datagrams)
      have hMore := lt_receiveSize (Nat.le_of_not_lt hLarge)
      simp only [Nat.zero_add] at hFirst
      omega
    refine ⟨hSmall, ?_⟩
    rintro data done rfl multi hFits
    refine (@readDatagrams_eq_returned_iff _ _ _ ⟨memory, 0, 0, []⟩ _ _ multi hSmall (by simpa using hFits)).mp ?_
    simpa using (hReplies data done rfl multi hFits).1
  · rintro ⟨hSmall, hReads⟩
    refine ⟨?_, readDatagrams_inBounds hSmall datagrams ⟨rfl, Nat.zero_le _, by simp⟩⟩
    rintro data done rfl multi hFits
    have hReads := hReads data done rfl multi hFits
    have hFits : 0 + (data ++ [done]).flatten.length ≤ bufferLength.toNat := by simpa using hFits
    constructor
    · simpa using (@readDatagrams_eq_returned_iff _ _ _ ⟨memory, 0, 0, []⟩ _ _ multi hSmall hFits).mpr hReads
    · intro i hi
      simpa using @readDatagrams_memory _ _ _ ⟨memory, 0, 0, []⟩ _ _ multi hSmall hFits hReads i hi

/-- A message without attributes of the reply to request 7 of process 100. -/
def reply (type : UInt8) : Bytes := [16, 0, 0, 0, type, 0, 2, 0, 7, 0, 0, 0, 100, 0, 0, 0]

/-- A reply that carries the number and the process of its request ends early. -/
theorem matching_reply_cut_short :
    ¬∀ (bufferLength sequence pid : UInt32) (memory : Memory) (datagrams : List Bytes),
      Gathers bufferLength sequence pid memory datagrams := by
  intro h
  have hReturned := ((h 8192 7 100 (fun _ => 0) [reply 24, reply 24, reply 3]).1 [reply 24, reply 24] (reply 3) rfl
    ⟨by decide, by decide, by decide⟩ (by decide)).1
  exact absurd hReturned (by decide)

end ImpactSockets.Networking
