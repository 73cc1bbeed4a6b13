import ImpactSockets.Sockets.Networking.RouteWire

/-! `find_default_route` from its request to its result: the reply of the kernel is
gathered in the buffer and read there. -/
namespace ImpactSockets.Networking

open BlockStream

def NLM_F_REQUEST : UInt16 := 1
def NLM_F_DUMP : UInt16 := 0x300
def RTM_NEWROUTE : UInt16 := 24
def RTM_GETROUTE : UInt16 := 26

/-- What is sent to the kernel: the header that is written into the buffer, and zeros. -/
def request (pid : UInt32) : WireMessage where
  type := RTM_GETROUTE
  flags := NLM_F_DUMP ||| NLM_F_REQUEST
  seq := 0
  pid := pid
  family := 0
  dstLen := 0
  srcLen := 0
  tos := 0
  table := 0
  protocol := 0
  scope := 0
  kind := 0
  routeFlags := 0
  attributes := []

/-- `message_buffer` when the reply is awaited, and the heap behind it. -/
def messageBuffer (heap : Memory) (pid : UInt32) : Memory := fun i =>
  if i < 8192 then Memory.store (fun _ => 0) 0 (request pid).encode i else heap i

/-- How the function ends. -/
inductive Answer where
  | returned (route : NetRoute)
  | threw (text : String)
  | waiting
deriving DecidableEq, Repr

variable (env : Environment)

/-- The function with the datagrams that its socket receives. `message_sequence` is
incremented when the request is written, so that the reply does not have the number that is
passed to the reader. -/
def findDefaultRouteFrom (heap : Memory) (pid : UInt32) (datagrams : List Bytes) : Answer :=
  match readNetlinkSocket 8192 1 pid (messageBuffer heap pid) datagrams with
  | (r, .returned length) => .returned (readRoutes env r.memory 0 length (emptyRoute env))
  | (_, .threw text) => .threw text
  | (_, .waiting) => .waiting

/-! ### The reply -/

/-- The reply to the request: datagrams of route messages, each with its number and its
process and marked as a part. -/
structure Dump (pid : UInt32) where
  parts : List (List WireMessage)
  nonempty : ∀ part ∈ parts, part ≠ []
  route : ∀ part ∈ parts, ∀ m ∈ part,
    m.type = RTM_NEWROUTE ∧ m.flags &&& NLM_F_MULTI ≠ 0 ∧ m.seq = (request pid).seq ∧ m.pid = pid

namespace Dump

variable {pid : UInt32} (dump : Dump pid)

def data : List Bytes := dump.parts.map (·.flatMap WireMessage.encode)

/-- The message that ends the reply, with an error number of zero. -/
def done (pid : UInt32) : Bytes :=
  (⟨20, NLMSG_DONE, NLM_F_MULTI, (request pid).seq, pid⟩ : NetlinkHeader).encode ++ littleEndian 4 0

def datagrams : List Bytes := dump.data ++ [done pid]

def messages : List WireMessage := dump.parts.flatten

/-- All data of the dump, message by message. -/
theorem flatten_data : dump.data.flatten = dump.messages.flatMap WireMessage.encode := by
  unfold data messages
  induction dump.parts with
  | nil => rfl
  | cons part parts ih => simp [ih]

end Dump

theorem holds_store (memory : Memory) (offset : Nat) (bytes : Bytes) : (memory.store offset bytes).Holds offset bytes :=
  fun _ hi => Memory.store_add memory bytes offset hi

/-- The header of a datagram is read from its first octets. -/
theorem header_append (h : NetlinkHeader) (bytes : Bytes) : header (h.encode ++ bytes) = h :=
  NetlinkHeader.read_encode (holds_append.mp (holds_store _ 0 (h.encode ++ bytes))).1

namespace Dump

variable {pid : UInt32} (dump : Dump pid)

theorem header_done : header (done pid) = ⟨20, NLMSG_DONE, NLM_F_MULTI, (request pid).seq, pid⟩ := header_append _ _

/-- A datagram begins with the header of its first message, and holds all of that. -/
theorem exists_header {datagram : Bytes} (h : datagram ∈ dump.data) :
    ∃ m : WireMessage, m.type = RTM_NEWROUTE ∧ m.flags &&& NLM_F_MULTI ≠ 0 ∧ m.seq = (request pid).seq ∧ m.pid = pid ∧
      header datagram = m.header ∧ 28 + m.payload.length ≤ datagram.length := by
  obtain ⟨part, hPart, rfl⟩ := List.mem_map.mp h
  obtain ⟨m, rest, rfl⟩ := List.exists_cons_of_ne_nil (dump.nonempty part hPart)
  obtain ⟨hType, hFlags, hSeq, hPid⟩ := dump.route _ hPart m List.mem_cons_self
  refine ⟨m, hType, hFlags, hSeq, hPid, ?_, ?_⟩
  · rw [List.flatMap_cons, WireMessage.encode, List.append_assoc, List.append_assoc]
    exact header_append _ _
  · rw [List.flatMap_cons, List.length_append, m.length_encode]
    exact Nat.le_add_right _ _

theorem length_done (pid : UInt32) : (done pid).length = 20 := by
  rw [done, List.length_append, NetlinkHeader.length_encode, length_littleEndian]

/-- The datagrams of a dump have the form that the reader expects. -/
theorem multipart : Multipart dump.data (done pid) where
  header := by
    intro datagram hMem
    rcases List.mem_append.mp hMem with hMem | hMem
    · obtain ⟨m, -, hFlags, -, -, hHeader, hLength⟩ := dump.exists_header hMem
      rw [hHeader]
      exact ⟨by omega, hFlags⟩
    · rw [List.mem_singleton.mp hMem, header_done, length_done]
      exact ⟨by decide, show NLM_F_MULTI &&& NLM_F_MULTI ≠ 0 by decide⟩
  data := by
    intro datagram hMem
    obtain ⟨m, hType, -, -, -, hHeader, -⟩ := dump.exists_header hMem
    rw [hHeader, show m.header.type = RTM_NEWROUTE from hType]
    decide
  done := by rw [header_done]

/-- The reader goes on to the end, since it waits for a number that no message has. -/
theorem readsToEnd (hFits : dump.datagrams.flatten.length ≤ 8192) : ReadsToEnd 1 pid dump.data (done pid) where
  sound := by
    intro datagram hMem
    obtain ⟨m, hType, -, -, -, hHeader, hLength⟩ := dump.exists_header hMem
    have hPart : datagram.length ≤ dump.datagrams.flatten.length :=
      (List.sublist_flatten_of_mem (List.mem_append_left _ hMem)).length_le
    have hLen : m.header.len.toNat = 28 + m.payload.length :=
      UInt32.toNat_ofNat_of_lt' (show _ < 2 ^ 32 by omega)
    rw [WellFormed, hHeader, show m.header.type = RTM_NEWROUTE from hType]
    exact ⟨⟨by omega, by omega, by omega⟩, by decide⟩
  early := by
    intro datagram hMem hMatches
    obtain ⟨m, -, -, hSeq, -, hHeader, -⟩ := dump.exists_header (List.mem_of_mem_dropLast hMem)
    have hNumber : m.seq = 1 := by
      have hNumber := hMatches.1
      rwa [hHeader] at hNumber
    exact absurd (hSeq.symm.trans hNumber) (show (0 : UInt32) ≠ 1 by decide)
  reached := by
    refine .inl ?_
    rw [WellFormed, header_done, length_done]
    exact ⟨by decide, show 16 ≤ (20 : UInt32).toNat by decide, show (20 : UInt32).toNat ≤ 20 by decide⟩

end Dump

/-- The function answers a reply that fits in its buffer as the search in the messages of
all datagrams does, whatever its memory held. -/
theorem findDefaultRouteFrom_dump (heap : Memory) {pid : UInt32} (dump : Dump pid)
    (hFits : dump.datagrams.flatten.length ≤ 8192) :
    findDefaultRouteFrom env heap pid dump.datagrams =
      .returned (findDefaultRoute env (dump.messages.map WireMessage.routeMessage)) := by
  have hReads := dump.readsToEnd hFits
  have hSmall : (8192 : UInt32).toNat < 2 ^ 31 := by decide
  have hRoom : 0 + (dump.data ++ [Dump.done pid]).flatten.length ≤ (8192 : UInt32).toNat := by
    rw [Nat.zero_add]
    exact hFits
  have hReturned := (readDatagrams_eq_returned_iff (r := ⟨messageBuffer heap pid, 0, 0, []⟩)
    dump.multipart hSmall hRoom).mpr
    hReads
  have hMemory : (readNetlinkSocket 8192 1 pid (messageBuffer heap pid) dump.datagrams).1.memory.Holds 0
      (dump.messages.flatMap WireMessage.encode) := by
    rw [← dump.flatten_data]
    exact fun i hi => readDatagrams_memory (r := ⟨messageBuffer heap pid, 0, 0, []⟩)
      dump.multipart hSmall hRoom hReads hi
  have hLength : (dump.messages.flatMap WireMessage.encode).length < 2 ^ 32 := by
    have hData : dump.data.flatten.length ≤ dump.datagrams.flatten.length := by simp [Dump.datagrams]
    rw [dump.flatten_data] at hData
    omega
  have hReading : (readNetlinkSocket 8192 1 pid (messageBuffer heap pid) dump.datagrams).2 =
      .returned (dump.messages.flatMap WireMessage.encode).length := by
    rw [← dump.flatten_data]
    exact hReturned.trans (congrArg Reading.returned (Nat.zero_add _))
  rw [findDefaultRouteFrom]
  split
  · next r length hRead =>
      rw [hRead] at hMemory hReading
      obtain rfl := Reading.returned.inj hReading
      rw [readRoutes_eq env dump.messages _ hMemory hLength]
      rfl
  · next hRead =>
      rw [hRead] at hReading
      cases hReading
  · next hRead =>
      rw [hRead] at hReading
      cases hReading

/-- A route message of the main table to process 100. -/
def routeTo (attributes : List WireAttribute) : WireMessage :=
  { request 100 with type := RTM_NEWROUTE, flags := NLM_F_MULTI, family := AF_INET, table := RT_TABLE_MAIN, attributes }

/-- A network over interface 3, and in a datagram of its own the default route over 2. -/
def twoRoutes : Dump 100 where
  parts := [[routeTo [⟨RTA_DST, [10, 0, 0, 0], by decide, fun _ => by decide⟩,
      ⟨RTA_OIF, [3, 0, 0, 0], by decide, fun _ => by decide⟩]],
    [routeTo [⟨RTA_GATEWAY, [192, 168, 1, 1], by decide, fun _ => by decide⟩,
      ⟨RTA_OIF, [2, 0, 0, 0], by decide, fun _ => by decide⟩]]]
  nonempty := by simp
  route := by decide

/-- Two routes, of which the second is the default one. -/
theorem findDefaultRouteFrom_twoRoutes :
    findDefaultRouteFrom ⟨fun _ => some "eth0", "", 0⟩ (fun _ => 255) 100 twoRoutes.datagrams =
      .returned ⟨"eth0", 2, some ⟨AF_INET, 0x0101A8C0⟩⟩ :=
  findDefaultRouteFrom_dump ⟨fun _ => some "eth0", "", 0⟩ (fun _ => 255) twoRoutes (by decide)

/-! ### What the function reads -/

def Reader.withMemory (r : Reader) (memory : Memory) : Reader := { r with memory }

variable {bufferLength : UInt32} (sequence pid : UInt32) {memory' : Memory} {r : Reader}

/-- A store keeps two memories in agreement below a bound. -/
theorem store_congr {bound : Nat} (h : ∀ i < bound, r.memory i = memory' i) (offset : Nat) (bytes : Bytes) :
    ∀ i < bound, r.memory.store offset bytes i = memory'.store offset bytes i := by
  intro i hi
  simp only [Memory.store, h i hi]

/-- What is received stays inside the buffer. -/
theorem length_take_receiveSize (hSmall : bufferLength.toNat < 2 ^ 31) (hBounds : InBounds bufferLength r)
    (datagram : Bytes) :
    r.buffer + (datagram.take (receiveSize bufferLength r.messageLength)).length ≤ bufferLength.toNat := by
  have hInStep := hBounds.inStep
  have hRoom := hBounds.room
  have hTake := List.length_take_le (bufferLength.toNat - r.messageLength) datagram
  rw [receiveSize_eq hSmall hRoom]
  omega

/-- A turn of the reader reads no further behind its buffer than the number of an error. -/
theorem readDatagram_congr (hSmall : bufferLength.toNat < 2 ^ 31) (hBounds : InBounds bufferLength r)
    (h : ∀ i < bufferLength.toNat + 5, r.memory i = memory' i) (datagram : Bytes) :
    ∃ memory'', readDatagram bufferLength sequence pid (r.withMemory memory') datagram =
        ((readDatagram bufferLength sequence pid r datagram).1.withMemory memory'',
          (readDatagram bufferLength sequence pid r datagram).2) ∧
      ∀ i < bufferLength.toNat + 5, (readDatagram bufferLength sequence pid r datagram).1.memory i = memory'' i := by
  have hReceived := length_take_receiveSize hSmall hBounds datagram
  obtain ⟨received, hDef⟩ : ∃ received, received = datagram.take (receiveSize bufferLength r.messageLength) := ⟨_, rfl⟩
  simp only [readDatagram, Reader.withMemory, ← hDef] at hReceived ⊢
  have hStore := store_congr h r.buffer received
  refine ⟨memory'.store r.buffer received, ?_, ?_⟩
  · by_cases hHeader : 16 ≤ received.length
    · have hBytes : ∀ i < 20, r.memory.store r.buffer received (r.buffer + i) =
        memory'.store r.buffer received (r.buffer + i) :=
        fun i hi => hStore (r.buffer + i) (by omega)
      rw [← header_congr fun i hi => hBytes i (by omega), ← uint32_congr hBytes 16 (by decide)]
      split_ifs <;> rfl
    · have hCorrupt (header : NetlinkHeader) : ¬header.Ok received.length := fun hOk => hHeader hOk.1
      simp only [hCorrupt, not_false_eq_true, if_true]
  · split_ifs <;> exact hStore

/-- The reading does not depend on the memory that is out of its reach. -/
theorem readDatagrams_congr (hSmall : bufferLength.toNat < 2 ^ 31) (hBounds : InBounds bufferLength r)
    (h : ∀ i < bufferLength.toNat + 5, r.memory i = memory' i) (datagrams : List Bytes) :
    ∃ memory'', readDatagrams bufferLength sequence pid (r.withMemory memory') datagrams =
        ((readDatagrams bufferLength sequence pid r datagrams).1.withMemory memory'',
          (readDatagrams bufferLength sequence pid r datagrams).2) ∧
      ∀ i < bufferLength.toNat + 5, (readDatagrams bufferLength sequence pid r datagrams).1.memory i = memory'' i := by
  induction datagrams generalizing r memory' with
  | nil => exact ⟨memory', rfl, h⟩
  | cons datagram datagrams ih =>
      obtain ⟨memory'', hRead, hMemory⟩ := readDatagram_congr sequence pid hSmall hBounds h datagram
      cases hReading : (readDatagram bufferLength sequence pid r datagram).2 with
      | none =>
          rw [readDatagrams_of_none hReading, readDatagrams_of_none (by rw [hRead]; exact hReading), hRead]
          exact ih (readDatagram_inBounds hSmall hBounds) hMemory
      | some reading =>
          rw [readDatagrams_of_some hReading, readDatagrams_of_some (by rw [hRead]; exact hReading), hRead]
          exact ⟨memory'', rfl, hMemory⟩

theorem readDatagram_returned {datagram : Bytes} {length : Nat}
    (h : (readDatagram bufferLength sequence pid r datagram).2 = some (.returned length)) :
    (readDatagram bufferLength sequence pid r datagram).1.messageLength = length := by
  simp only [readDatagram] at h ⊢
  split_ifs at h ⊢ <;> simp_all

/-- What is returned is a number of bytes of the buffer. -/
theorem returned_le (hSmall : bufferLength.toNat < 2 ^ 31) (hBounds : InBounds bufferLength r) (datagrams : List Bytes)
    {length : Nat} (h : (readDatagrams bufferLength sequence pid r datagrams).2 = .returned length) :
    length ≤ bufferLength.toNat := by
  induction datagrams generalizing r with
  | nil => cases h
  | cons datagram datagrams ih =>
      cases hReading : (readDatagram bufferLength sequence pid r datagram).2 with
      | none =>
          rw [readDatagrams_of_none hReading] at h
          exact ih (readDatagram_inBounds hSmall hBounds) h
      | some reading =>
          rw [readDatagrams_of_some hReading] at h
          obtain rfl : reading = .returned length := h
          rw [← readDatagram_returned sequence pid hReading]
          exact (readDatagram_inBounds hSmall hBounds).room

/-- Whatever datagrams arrive, the result depends on no byte of the heap from the sixth
behind the buffer on. The fifth may be taken for the table of a message of 16 bytes that
ends the buffer. -/
theorem findDefaultRouteFrom_congr {heap heap' : Memory} (h : ∀ i < 5, heap (8192 + i) = heap' (8192 + i))
    (datagrams : List Bytes) :
    findDefaultRouteFrom env heap pid datagrams = findDefaultRouteFrom env heap' pid datagrams := by
  have hSmall : (8192 : UInt32).toNat < 2 ^ 31 := by decide
  have hBounds : InBounds 8192 ⟨messageBuffer heap pid, 0, 0, []⟩ := ⟨rfl, Nat.zero_le _, by simp⟩
  have hBuffer : ∀ i < (8192 : UInt32).toNat + 5, messageBuffer heap pid i = messageBuffer heap' pid i := by
    intro i hi
    rcases Nat.lt_or_ge i 8192 with hi' | hi'
    · simp only [messageBuffer, if_pos hi']
    · obtain ⟨k, rfl⟩ := Nat.exists_eq_add_of_le hi'
      have hBehind : ¬8192 + k < 8192 := by omega
      simp only [messageBuffer, if_neg hBehind]
      have hi : 8192 + k < 8192 + 5 := hi
      exact h k (by omega)
  obtain ⟨memory, hRead, hMemory⟩ := readDatagrams_congr 1 pid hSmall hBounds hBuffer datagrams
  have hReturned := @returned_le 8192 1 pid _ hSmall hBounds datagrams
  unfold findDefaultRouteFrom
  rw [readNetlinkSocket, readNetlinkSocket,
    show readDatagrams 8192 1 pid ⟨messageBuffer heap' pid, 0, 0, []⟩ datagrams = _ from hRead]
  generalize readDatagrams 8192 1 pid ⟨messageBuffer heap pid, 0, 0, []⟩ datagrams = reply at hMemory hReturned ⊢
  obtain ⟨r, reading⟩ := reply
  cases reading with
  | returned length =>
      have hLength : length ≤ 8192 := hReturned rfl
      refine congrArg Answer.returned (readRoutes_congr env 0 length _ fun i _ hi => hMemory i ?_)
      change i < 8192 + 5
      omega
  | threw text => rfl
  | waiting => rfl

/-- Two datagrams too short for what is read from them, on two memories. -/
theorem findDefaultRouteFrom_congr_header :
    findDefaultRouteFrom ⟨fun _ => none, "", 0⟩ (fun _ => 0) 100 [reply 24, reply 3] =
      findDefaultRouteFrom ⟨fun _ => none, "", 0⟩ (fun i => if i < 8197 then 0 else 7) 100 [reply 24, reply 3] :=
  findDefaultRouteFrom_congr _ 100 (fun i hi => by rw [if_pos (by omega)]) _

end ImpactSockets.Networking
