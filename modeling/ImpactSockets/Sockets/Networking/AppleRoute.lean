import ImpactSockets.Sockets.Networking.KernelSocket

/-! `find_default_route` on macOS. A reply is a header with addresses behind it, each of
them filled up to whole words. The bits of `rtm_addrs` say which addresses there are. -/
namespace ImpactSockets.Networking.Apple

open BasicSocket BlockStream

def RTM_VERSION : UInt8 := 5
def RTM_GET : UInt8 := 4
def RTA_DST : UInt32 := 1
def RTAX_DST : Nat := 0
def RTAX_GATEWAY : Nat := 1
def RTAX_MAX : Nat := 8
def AF_INET6 : UInt8 := 30

/-- `sizeof(struct rt_msghdr)`. -/
def sizeofRtMsghdr : Nat := 92

/-- `buffer.size()`. -/
def bufferSize : Nat := sizeofRtMsghdr + 512

/-- `struct rt_msghdr`, as far as it is read. -/
structure RouteHeader where
  type : UInt8
  index : UInt16
  addrs : UInt32
  pid : UInt32
  seq : UInt32
deriving DecidableEq, Repr

def RouteHeader.read (memory : Memory) : RouteHeader where
  type := memory 3
  index := memory.uint16 4
  addrs := memory.uint32 12
  pid := memory.uint32 16
  seq := memory.uint32 20

/-- The condition that ends the loop around `recv`. -/
def RouteHeader.IsReply (h : RouteHeader) (pid : UInt32) : Prop := h.type = RTM_GET ∧ h.seq = 1 ∧ h.pid = pid

instance (h : RouteHeader) (pid : UInt32) : Decidable (h.IsReply pid) := inferInstanceAs (Decidable (_ ∧ _ ∧ _))

/-- What is sent: the header, and an address of zeros with its length and its family. -/
def request (pid : UInt32) (length family : UInt8) : Bytes :=
  littleEndian 2 (sizeofRtMsghdr + length.toNat) ++ [RTM_VERSION, RTM_GET] ++ List.replicate 8 0 ++
    littleEndian 4 RTA_DST.toNat ++ littleEndian 4 pid.toNat ++ littleEndian 4 1 ++ List.replicate 68 0 ++
    [length, family] ++ List.replicate (length.toNat - 2) 0

/-- The request that is accepted in the end, with its family: `sockaddr_in` has 16 bytes and
`sockaddr_in6` has 28. -/
def sendRequest (accepts : Bytes → Bool) (pid : UInt32) : Option (UInt8 × Bytes) :=
  if accepts (request pid 16 AF_INET) then some (AF_INET, request pid 16 AF_INET)
  else if accepts (request pid 28 AF_INET6) then some (AF_INET6, request pid 28 AF_INET6)
  else none

/-- `buffer` when the reply is awaited, and the heap behind it. -/
def routeBuffer (heap : Memory) (sent : Bytes) : Memory := fun i =>
  if i < bufferSize then Memory.store (fun _ => 0) 0 sent i else heap i

/-- The loop around `recv`, unless the datagrams come to an end. -/
def receive (pid : UInt32) (memory : Memory) : List Bytes → Option Memory
  | [] => none
  | datagram :: datagrams =>
      let memory := memory.store 0 (datagram.take bufferSize)
      if (RouteHeader.read memory).IsReply pid then some memory else receive pid memory datagrams

/-- `ROUNDUP`. -/
def roundup (a size : Nat) : Nat := if a &&& (size - 1) ≠ 0 then 1 + (a ||| (size - 1)) else a

/-- `NEXT_SA`, with `sa_len` in the first byte. -/
def nextSa (memory : Memory) (ap : Nat) : Nat := ap + if memory ap ≠ 0 then roundup (memory ap).toNat 8 else 8

/-- `rtm_addrs & (1 << i)`. -/
def Present (addrs : UInt32) (i : Nat) : Prop := addrs &&& 1 <<< UInt32.ofNat i ≠ 0

instance (addrs : UInt32) (i : Nat) : Decidable (Present addrs i) := inferInstanceAs (Decidable (_ ≠ _))

structure AddressWalk where
  socketAddress : Nat
  rtiInfo : List (Option Nat)

/-- One turn of the loop over the addresses. -/
def AddressWalk.visit (memory : Memory) (addrs : UInt32) (w : AddressWalk) (i : Nat) : AddressWalk :=
  if Present addrs i then ⟨nextSa memory w.socketAddress, w.rtiInfo ++ [some w.socketAddress]⟩
  else ⟨w.socketAddress, w.rtiInfo ++ [none]⟩

def walkAddresses (memory : Memory) (addrs : UInt32) (count : Nat) : AddressWalk :=
  (List.range count).foldl (AddressWalk.visit memory addrs) ⟨sizeofRtMsghdr, []⟩

/-- `memcpy` from the memory. -/
def bytesAt (memory : Memory) (offset size : Nat) : Bytes := (List.range size).map fun i => memory (offset + i)

/-- The blocks that the `switch` allocates for the gateway and fills, in order. The case of
`AF_INET` has no `break`. -/
def gatewayBlocks (family : UInt8) (memory : Memory) (socketAddress : Nat) : List Bytes :=
  (if family = AF_INET then [bytesAt memory socketAddress 16] else []) ++
    if family = AF_INET ∨ family = AF_INET6 then [bytesAt memory socketAddress 28] else []

/-- The `netroute` with the bytes of its gateway, and the blocks that nothing points to any
more. -/
structure Route where
  name : String
  ifaceIndex : UInt32
  gateway : Option Bytes
  lost : List Bytes
deriving DecidableEq, Repr

variable (env : Environment)

/-- `rti_info`, as offsets in the buffer. -/
def rtiInfo (memory : Memory) : List (Option Nat) :=
  (walkAddresses memory (RouteHeader.read memory).addrs RTAX_MAX).rtiInfo

def readReply (family : UInt8) (memory : Memory) : Route :=
  let index := (RouteHeader.read memory).index.toUInt32
  let blocks :=
    match (rtiInfo memory)[RTAX_GATEWAY]?.join with
    | some socketAddress => gatewayBlocks family memory socketAddress
    | none => []
  ⟨(env.indexToName index).getD env.staleName, index, blocks.getLast?, blocks.dropLast⟩

/-- What comes of the calls on the socket: the family and the buffer with the reply. Once
there are no more datagrams `recv` fails, or waits forever. -/
def askKernel (heap : Memory) (pid : UInt32) (accepts : Bytes → Bool) (fails : Bool) (datagrams : List Bytes) :
    Option (Except ImpactError (UInt8 × Memory)) :=
  match sendRequest accepts pid with
  | none => some (.error .system)
  | some (family, sent) =>
      match receive pid (routeBuffer heap sent) datagrams with
      | some memory => some (.ok (family, memory))
      | none => if fails then some (.error .system) else none

/-- `find_default_route`, which reads the reply when the socket has been closed. -/
def findDefaultRoute (descriptor : Int) (heap : Memory) (pid : UInt32) (accepts : Bytes → Bool) (fails : Bool)
    (datagrams : List Bytes) (s : Process) : Option (Process × Except ImpactError Route) :=
  (onKernelSocket descriptor (askKernel heap pid accepts fails datagrams) s).map fun outcome =>
    (outcome.1, outcome.2.map fun reply => readReply env reply.1 reply.2)

/-! ### Addresses -/

/-- A `sockaddr`, which begins with its length. The empty one stands for zeros. -/
structure WireAddress where
  octets : Bytes
  fits : octets.length < 256
  saLen : octets ≠ [] → octets.head? = some (UInt8.ofNat octets.length)

/-- How many bytes the kernel gives an address of some length, which it fills up with zeros. -/
structure Padding where
  size : Nat → Nat
  le : ∀ length, length ≤ size length
  empty : 0 < size 0

variable (padding : Padding)

def WireAddress.encode (a : WireAddress) : Bytes :=
  a.octets ++ List.replicate (padding.size a.octets.length - a.octets.length) 0

/-- How far `NEXT_SA` goes for an address of some length. -/
def stride (length : Nat) : Nat := if length = 0 then 8 else roundup length 8

/-- Rounding up does not make a length smaller. -/
theorem le_roundup (a size : Nat) : a ≤ roundup a size := by
  unfold roundup
  split_ifs
  · exact Nat.le_trans Nat.left_le_or (Nat.le_add_left _ _)
  · exact Nat.le_refl a

/-- The largest address is stepped over by at most 256 octets. -/
theorem roundup_le {a : Nat} (h : a < 256) : roundup a 8 ≤ 256 := by
  have hOr : a ||| (8 - 1) < 2 ^ 8 := Nat.or_lt_two_pow h (by decide)
  unfold roundup
  split_ifs <;> omega

/-- An address takes its padded length. -/
theorem WireAddress.length_encode (a : WireAddress) : (a.encode padding).length = padding.size a.octets.length := by
  rw [encode, List.length_append, List.length_replicate, Nat.add_sub_cancel' (padding.le _)]

variable {padding}
variable {memory : Memory} {offset : Nat}

/-- One turn of the loop, in front of an address. -/
theorem nextSa_encode {a : WireAddress} (h : memory.Holds offset (a.encode padding)) :
    nextSa memory offset = offset + stride a.octets.length := by
  rw [nextSa, stride]
  by_cases hEmpty : a.octets = []
  · have hFirst := h 0 (by rw [a.length_encode, hEmpty]; exact padding.empty)
    have hZero : memory offset = 0 := by simpa [WireAddress.encode, hEmpty] using hFirst
    rw [if_pos (List.length_eq_zero_iff.mpr hEmpty), if_neg (not_not.mpr hZero)]
  · obtain ⟨octet, rest, hOctets⟩ := List.exists_cons_of_ne_nil hEmpty
    have hLength := a.saLen hEmpty
    have hFits := a.fits
    rw [WireAddress.encode, hOctets, List.cons_append, holds_cons] at h
    have hPositive : 0 < a.octets.length := List.length_pos_iff.mpr hEmpty
    have hByte : (memory offset).toNat = a.octets.length := by
      rw [h.1, Option.some.inj ((congrArg List.head? hOctets).symm.trans hLength)]
      exact UInt8.toNat_ofNat_of_lt' hFits
    have hNonzero : memory offset ≠ 0 := by
      intro hZero
      rw [hZero] at hByte
      exact absurd hByte (Nat.ne_of_lt hPositive)
    rw [if_neg (Nat.ne_of_gt hPositive), if_pos hNonzero, hByte]

/-! ### The reply -/

/-- A reply to the request: the index of the interface, the bits of the addresses and the
addresses, with arbitrary bytes in the fields that are not read. -/
structure Reply where
  front : Vector UInt8 3
  index : UInt16
  flags : Vector UInt8 6
  addrs : UInt32
  metrics : Vector UInt8 68
  address : Nat → WireAddress

namespace Reply

variable (padding : Padding) (reply : Reply)

/-- The bytes of one address, if it is there. -/
def addressBytes (i : Nat) : Bytes := if Present reply.addrs i then (reply.address i).encode padding else []

def addresses : Bytes := (List.range RTAX_MAX).flatMap (reply.addressBytes padding)

def header (pid : UInt32) : Bytes :=
  reply.front.toList ++ [RTM_GET] ++ littleEndian 2 reply.index.toNat ++ reply.flags.toList ++
    littleEndian 4 reply.addrs.toNat ++ littleEndian 4 pid.toNat ++ littleEndian 4 1 ++ reply.metrics.toList

def encode (pid : UInt32) : Bytes := reply.header pid ++ reply.addresses padding

/-- Where an address is in the buffer, if it is there. -/
def place (i : Nat) : Option Nat :=
  if Present reply.addrs i then some (sizeofRtMsghdr + ((List.range i).flatMap (reply.addressBytes padding)).length)
  else none

/-- `NEXT_SA` goes over the address as the kernel has filled it up, if it is there. -/
def InStep (i : Nat) : Prop :=
  Present reply.addrs i → padding.size (reply.address i).octets.length = stride (reply.address i).octets.length

instance (i : Nat) : Decidable (reply.InStep padding i) := inferInstanceAs (Decidable (_ → _))

/-- The header has its fixed length. -/
theorem length_header (pid : UInt32) : (reply.header pid).length = sizeofRtMsghdr := by
  simp [header, length_littleEndian, sizeofRtMsghdr]

/-- What is read of the header that a reply begins with. -/
theorem read_header {pid : UInt32} (h : memory.Holds 0 (reply.header pid)) :
    RouteHeader.read memory = ⟨RTM_GET, reply.index, reply.addrs, pid, 1⟩ := by
  simp only [header, holds_append, List.length_append, Vector.length_toList, List.length_singleton,
    length_littleEndian, Nat.reduceAdd] at h
  obtain ⟨⟨⟨⟨⟨⟨⟨-, hType⟩, hIndex⟩, -⟩, hAddrs⟩, hPid⟩, hSeq⟩, -⟩ := h
  have hType : memory 3 = RTM_GET := (holds_cons.mp hType).1
  have hIndex : memory.uint16 4 = reply.index := UInt16.toNat.inj (hIndex.uint16 reply.index.toNat_lt)
  have hAddrs : memory.uint32 12 = reply.addrs := UInt32.toNat.inj (hAddrs.uint32 reply.addrs.toNat_lt)
  have hPid : memory.uint32 16 = pid := UInt32.toNat.inj (hPid.uint32 pid.toNat_lt)
  have hSeq : memory.uint32 20 = 1 := UInt32.toNat.inj (hSeq.uint32 (by decide))
  rw [RouteHeader.read, hType, hIndex, hAddrs, hPid, hSeq]

variable {padding}

/-- The addresses of a reply, cut in front of the one at an index. -/
theorem exists_addresses {i : Nat} (hi : i < RTAX_MAX) :
    ∃ rest, reply.addresses padding =
      (List.range i).flatMap (reply.addressBytes padding) ++ (reply.addressBytes padding i ++ rest) := by
  obtain ⟨count, hCount⟩ := Nat.exists_eq_add_of_le hi
  refine ⟨((List.range count).map (i.succ + ·)).flatMap (reply.addressBytes padding), ?_⟩
  rw [addresses, hCount, List.range_add, List.range_succ, List.flatMap_append, List.flatMap_append,
    List.flatMap_singleton, List.append_assoc]

/-- Where in memory the address at an index stands. -/
theorem holds_addressBytes (h : memory.Holds sizeofRtMsghdr (reply.addresses padding)) {i : Nat} (hi : i < RTAX_MAX) :
    memory.Holds (sizeofRtMsghdr + ((List.range i).flatMap (reply.addressBytes padding)).length)
      (reply.addressBytes padding i) := by
  obtain ⟨rest, hRest⟩ := reply.exists_addresses hi
  rw [hRest, holds_append, holds_append] at h
  exact h.2.1

/-- One turn of the loop over the addresses. -/
theorem visit_place {i : Nat} (h : memory.Holds
      (sizeofRtMsghdr + ((List.range i).flatMap (reply.addressBytes padding)).length) (reply.addressBytes padding i))
    (hStep : reply.InStep padding i) (rtiInfo : List (Option Nat)) :
    AddressWalk.visit memory reply.addrs
        ⟨sizeofRtMsghdr + ((List.range i).flatMap (reply.addressBytes padding)).length, rtiInfo⟩ i =
      ⟨sizeofRtMsghdr + ((List.range (i + 1)).flatMap (reply.addressBytes padding)).length,
        rtiInfo ++ [reply.place padding i]⟩ := by
  rw [List.range_succ, List.flatMap_append, List.flatMap_singleton, List.length_append, ← Nat.add_assoc,
    AddressWalk.visit, place]
  rw [addressBytes] at h ⊢
  split_ifs at h ⊢ with hPresent
  · rw [nextSa_encode h, WireAddress.length_encode, hStep hPresent]
  · rfl

/-- The loop is at the place of the next address as long as it goes over what the kernel has
filled up. -/
theorem walkAddresses_eq (h : memory.Holds sizeofRtMsghdr (reply.addresses padding)) {count : Nat}
    (hCount : count ≤ RTAX_MAX) (hSteps : ∀ i < count, reply.InStep padding i) :
    walkAddresses memory reply.addrs count =
      ⟨sizeofRtMsghdr + ((List.range count).flatMap (reply.addressBytes padding)).length,
        (List.range count).map (reply.place padding)⟩ := by
  induction count with
  | zero => rfl
  | succ count ih =>
      have hHere := reply.holds_addressBytes h hCount
      have hBefore := ih (by omega) fun i hi => hSteps i (by omega)
      rw [walkAddresses, List.range_succ, List.foldl_concat, ← walkAddresses, hBefore,
        visit_place reply hHere (hSteps count (by omega)), List.map_append, List.range_succ]
      rfl

end Reply

/-- Further visits only add to the table of addresses. -/
theorem prefix_visits (addrs : UInt32) (w : AddressWalk) (is : List Nat) :
    w.rtiInfo <+: (is.foldl (AddressWalk.visit memory addrs) w).rtiInfo := by
  induction is generalizing w with
  | nil => exact List.prefix_refl _
  | cons i is ih =>
      refine List.IsPrefix.trans ?_ (ih (w.visit memory addrs i))
      unfold AddressWalk.visit
      split_ifs
      · exact List.prefix_append _ _
      · exact List.prefix_append _ _

/-- The turns up to one decide what it finds. -/
theorem rtiInfo_of_visit {addrs : UInt32} {i : Nat} (hi : i < RTAX_MAX) :
    (walkAddresses memory addrs RTAX_MAX).rtiInfo[(walkAddresses memory addrs i).rtiInfo.length]? =
      some (if Present addrs i then some (walkAddresses memory addrs i).socketAddress else none) := by
  obtain ⟨count, hCount⟩ := Nat.exists_eq_add_of_le hi
  have hWalk : walkAddresses memory addrs RTAX_MAX = ((List.range count).map (i.succ + ·)).foldl
      (AddressWalk.visit memory addrs) ((walkAddresses memory addrs i).visit memory addrs i) := by
    rw [walkAddresses, hCount, List.range_add, List.range_succ, List.foldl_append, List.foldl_concat, walkAddresses]
  obtain ⟨rest, hRest⟩ := @prefix_visits memory addrs ((walkAddresses memory addrs i).visit memory addrs i)
    ((List.range count).map (i.succ + ·))
  rw [hWalk, ← hRest, AddressWalk.visit]
  split_ifs <;> simp

/-- The place of the gateway depends on the first address alone. -/
theorem gateway_place (memory : Memory) (addrs : UInt32) :
    (walkAddresses memory addrs RTAX_MAX).rtiInfo[RTAX_GATEWAY]?.join =
      if Present addrs RTAX_GATEWAY then
        some (if Present addrs RTAX_DST then nextSa memory sizeofRtMsghdr else sizeofRtMsghdr)
      else none := by
  have hFirst : walkAddresses memory addrs RTAX_GATEWAY =
      (⟨sizeofRtMsghdr, []⟩ : AddressWalk).visit memory addrs RTAX_DST := rfl
  have hLength : (walkAddresses memory addrs RTAX_GATEWAY).rtiInfo.length = RTAX_GATEWAY := by
    rw [hFirst, AddressWalk.visit]
    split_ifs <;> rfl
  have hVisit := @rtiInfo_of_visit memory addrs RTAX_GATEWAY (by decide)
  rw [hLength] at hVisit
  rw [hVisit, hFirst, AddressWalk.visit]
  split_ifs <;> rfl

/-! ### The datagrams -/

/-- The header is read from its first 24 octets. -/
theorem RouteHeader.read_congr {memory memory' : Memory} (h : ∀ i < 24, memory i = memory' i) :
    RouteHeader.read memory = RouteHeader.read memory' := by
  have hAt : ∀ i < 24, memory (0 + i) = memory' (0 + i) := fun i hi => by simpa using h i hi
  have hIndex := uint16_congr hAt 4 (by decide)
  have hAddrs := uint32_congr hAt 12 (by decide)
  have hPid := uint32_congr hAt 16 (by decide)
  have hSeq := uint32_congr hAt 20 (by decide)
  simp only [Nat.zero_add] at hIndex hAddrs hPid hSeq
  rw [RouteHeader.read, RouteHeader.read, h 3 (by decide), hIndex, hAddrs, hPid, hSeq]

/-- A datagram with a header of its own that is not of a reply to the request. -/
structure Other (pid : UInt32) (datagram : Bytes) : Prop where
  length : 24 ≤ datagram.length
  header : ¬(RouteHeader.read (Memory.store (fun _ => 0) 0 datagram)).IsReply pid

/-- Another datagram is not taken for the reply. -/
theorem Other.not_isReply {pid : UInt32} {datagram : Bytes} (other : Other pid datagram) :
    ¬(RouteHeader.read (memory.store 0 (datagram.take bufferSize))).IsReply pid := by
  have hLength := other.length
  have hHeader : RouteHeader.read (memory.store 0 (datagram.take bufferSize)) =
      RouteHeader.read (Memory.store (fun _ => 0) 0 datagram) := by
    refine RouteHeader.read_congr fun i hi => ?_
    have hTaken : i < (datagram.take bufferSize).length := by
      rw [List.length_take]
      exact Nat.lt_of_lt_of_le hi (Nat.le_min.mpr ⟨by decide, hLength⟩)
    have hStored := Memory.store_add memory (datagram.take bufferSize) 0 hTaken
    have hWhole := Memory.store_add (fun _ => 0) datagram 0 (Nat.lt_of_lt_of_le hi hLength)
    rw [Nat.zero_add] at hStored hWhole
    rw [hStored, hWhole, List.getElem_take]
  rw [hHeader]
  exact other.header

/-- The loop passes over what is for others and stops at the reply. -/
theorem receive_reply {pid : UInt32} (reply : Reply) (hFits : (reply.encode padding pid).length ≤ bufferSize)
    {others : List Bytes} (hOthers : ∀ datagram ∈ others, Other pid datagram) (later : List Bytes) :
    ∃ received, receive pid memory (others ++ reply.encode padding pid :: later) = some received ∧
      received.Holds 0 (reply.header pid) ∧ received.Holds sizeofRtMsghdr (reply.addresses padding) := by
  induction others generalizing memory with
  | nil =>
      have hHolds :
          (memory.store 0 ((reply.encode padding pid).take bufferSize)).Holds 0 (reply.encode padding pid) := by
        rw [List.take_of_length_le hFits]
        exact holds_store memory 0 _
      obtain ⟨hHeader, hAddresses⟩ := holds_append.mp hHolds
      rw [reply.length_header, Nat.zero_add] at hAddresses
      refine ⟨_, if_pos ?_, hHeader, hAddresses⟩
      rw [reply.read_header hHeader]
      exact ⟨rfl, rfl, rfl⟩
  | cons datagram others ih =>
      obtain ⟨received, hReceive, hHolds⟩ := @ih (memory.store 0 (datagram.take bufferSize)) fun other hOther =>
        hOthers other (List.mem_cons_of_mem _ hOther)
      refine ⟨received, ?_, hHolds⟩
      rw [← hReceive, List.cons_append]
      exact if_neg (hOthers datagram List.mem_cons_self).not_isReply

/-! ### The route -/

namespace Reply

variable (reply : Reply)

/-- The place of an address that is there, and what stands there. -/
theorem place_eq_some {i p : Nat} (h : reply.place padding i = some p) :
    p = sizeofRtMsghdr + ((List.range i).flatMap (reply.addressBytes padding)).length ∧
      reply.addressBytes padding i = (reply.address i).encode padding := by
  unfold place at h
  split_ifs at h with hPresent
  exact ⟨(Option.some.inj h).symm, if_pos hPresent⟩

variable (padding)

/-- The addresses are inside the buffer, and the loop has found each of them up to the first
that it goes over by another number of bytes than the kernel has given it. The gateway is
found if and only if the destination is not such an address. -/
structure Found (memory : Memory) : Prop where
  holds : ∀ i < RTAX_MAX, ∀ p, reply.place padding i = some p →
    memory.Holds p ((reply.address i).encode padding) ∧ p + ((reply.address i).encode padding).length ≤ bufferSize
  rtiInfo : ∀ i < RTAX_MAX, (∀ j < i, reply.InStep padding j) →
    (rtiInfo memory)[i]? = some (reply.place padding i)
  gateway : Present reply.addrs RTAX_GATEWAY →
    ((Apple.rtiInfo memory)[RTAX_GATEWAY]?.join = reply.place padding RTAX_GATEWAY ↔ reply.InStep padding RTAX_DST)

variable {padding}

/-- The gateway stands behind the destination, if there is one. -/
theorem place_gateway (h : Present reply.addrs RTAX_GATEWAY) :
    reply.place padding RTAX_GATEWAY =
      some (sizeofRtMsghdr +
        if Present reply.addrs RTAX_DST then padding.size (reply.address RTAX_DST).octets.length else 0) := by
  have hBefore : (List.range RTAX_GATEWAY).flatMap (reply.addressBytes padding) =
      reply.addressBytes padding RTAX_DST := by
    rw [RTAX_GATEWAY, List.range_one, List.flatMap_singleton, RTAX_DST]
  rw [place, if_pos h, hBefore, addressBytes]
  split_ifs
  · rw [WireAddress.length_encode]
  · rfl

/-- A reply in memory is found to have its addresses in their places. -/
theorem found {pid : UInt32} (hFits : (reply.encode padding pid).length ≤ bufferSize)
    (hHeader : memory.Holds 0 (reply.header pid)) (hAddresses : memory.Holds sizeofRtMsghdr (reply.addresses padding)) :
    reply.Found padding memory where
  holds i hi p hPlace := by
    obtain ⟨rfl, hBytes⟩ := reply.place_eq_some hPlace
    obtain ⟨rest, hRest⟩ := @exists_addresses padding reply i hi
    rw [encode, List.length_append, length_header, hRest, List.length_append, List.length_append, hBytes] at hFits
    rw [← hBytes]
    refine ⟨reply.holds_addressBytes hAddresses hi, ?_⟩
    rw [hBytes]
    omega
  rtiInfo i hi hSteps := by
    have hWalk := reply.walkAddresses_eq hAddresses hi.le hSteps
    have hVisit := @rtiInfo_of_visit memory reply.addrs i hi
    rw [hWalk, List.length_map, List.length_range] at hVisit
    rw [Apple.rtiInfo, reply.read_header hHeader, hVisit, place]
  gateway hPresent := by
    have hPlace := @gateway_place memory reply.addrs
    rw [if_pos hPresent] at hPlace
    rw [Apple.rtiInfo, reply.read_header hHeader, hPlace, reply.place_gateway hPresent, InStep]
    by_cases hDestination : Present reply.addrs RTAX_DST
    · have hHere : memory.Holds sizeofRtMsghdr (reply.addressBytes padding RTAX_DST) :=
        reply.holds_addressBytes hAddresses (by decide : RTAX_DST < RTAX_MAX)
      rw [addressBytes, if_pos hDestination] at hHere
      rw [if_pos hDestination, if_pos hDestination, nextSa_encode hHere]
      simp only [hDestination, true_imp_iff, Option.some.injEq, Nat.add_left_cancel_iff]
      exact eq_comm
    · rw [if_neg hDestination, if_neg hDestination]
      simp [hDestination]

variable (padding)

/-- What the route says of the reply. The gateway has the size of a `sockaddr_in6`, and is
the gateway of the reply unless `NEXT_SA` goes over the destination by another number of
bytes than it has. The block of a `sockaddr_in` is lost. -/
structure Answers (family : UInt8) (route : Route) : Prop where
  name : route.name = (env.indexToName reply.index.toUInt32).getD env.staleName
  ifaceIndex : route.ifaceIndex = reply.index.toUInt32
  absent : ¬Present reply.addrs RTAX_GATEWAY → route.gateway = none ∧ route.lost = []
  present : Present reply.addrs RTAX_GATEWAY → ∃ bytes, route.gateway = some bytes ∧ bytes.length = 28 ∧
    (reply.InStep padding RTAX_DST → (reply.address RTAX_GATEWAY).octets.take 28 <+: bytes) ∧
    route.lost = if family = AF_INET then [bytes.take 16] else []

end Reply

theorem length_bytesAt (offset size : Nat) : (bytesAt memory offset size).length = size := by simp [bytesAt]

/-- The beginning of a longer read is the shorter read. -/
theorem take_bytesAt {count size : Nat} (h : count ≤ size) (offset : Nat) :
    (bytesAt memory offset size).take count = bytesAt memory offset count := by
  rw [bytesAt, ← List.map_take, List.take_range, Nat.min_eq_left h, bytesAt]

/-- A read begins with what memory holds there. -/
theorem prefix_bytesAt {bytes : Bytes} (h : memory.Holds offset bytes) (size : Nat) :
    bytes.take size <+: bytesAt memory offset size := by
  have hLength := @length_bytesAt memory offset size
  refine List.prefix_iff_getElem.mpr ⟨by rw [List.length_take, hLength]; exact Nat.min_le_left _ _, fun i hi => ?_⟩
  rw [List.length_take] at hi
  rw [List.getElem_take, ← h i (by omega)]
  simp [bytesAt]

/-- The last copy of the gateway has 28 octets, for either family. -/
theorem getLast?_gatewayBlocks {family : UInt8} (h : family = AF_INET ∨ family = AF_INET6) (p : Nat) :
    (gatewayBlocks family memory p).getLast? = some (bytesAt memory p 28) := by
  rw [gatewayBlocks, if_pos h, List.getLast?_concat]

/-- Before it, the copy for IPv4 has 16 octets. -/
theorem dropLast_gatewayBlocks {family : UInt8} (h : family = AF_INET ∨ family = AF_INET6) (p : Nat) :
    (gatewayBlocks family memory p).dropLast = if family = AF_INET then [bytesAt memory p 16] else [] := by
  rw [gatewayBlocks, if_pos h, List.dropLast_concat]

/-- The request that is sent asks for one of the two families. -/
theorem family_of_sendRequest {accepts : Bytes → Bool} {pid : UInt32} {family : UInt8} {sent : Bytes}
    (h : sendRequest accepts pid = some (family, sent)) : family = AF_INET ∨ family = AF_INET6 := by
  unfold sendRequest at h
  split_ifs at h
  · exact .inl (congrArg Prod.fst (Option.some.inj h)).symm
  · exact .inr (congrArg Prod.fst (Option.some.inj h)).symm

/-- What is read from a reply found in memory is its answer. -/
theorem Reply.answers (reply : Reply) {pid : UInt32} {family : UInt8} (hFamily : family = AF_INET ∨ family = AF_INET6)
    (hHeader : memory.Holds 0 (reply.header pid)) (found : reply.Found padding memory) :
    reply.Answers env padding family (readReply env family memory) := by
  have hIndex : (RouteHeader.read memory).index = reply.index := by rw [reply.read_header hHeader]
  have hGateway : (rtiInfo memory)[RTAX_GATEWAY]?.join =
      if Present reply.addrs RTAX_GATEWAY then
        some (if Present reply.addrs RTAX_DST then nextSa memory sizeofRtMsghdr else sizeofRtMsghdr)
      else none := by
    rw [rtiInfo, gateway_place, reply.read_header hHeader]
  refine ⟨?_, ?_, fun hAbsent => ?_, fun hPresent => ?_⟩
  · rw [readReply, hIndex]
  · rw [readReply, hIndex]
  · rw [readReply, hGateway, if_neg hAbsent]
    exact ⟨rfl, rfl⟩
  · rw [if_pos hPresent] at hGateway
    generalize (if Present reply.addrs RTAX_DST then nextSa memory sizeofRtMsghdr else sizeofRtMsghdr) = p at hGateway
    refine ⟨bytesAt memory p 28, ?_, length_bytesAt p 28, fun hStep => ?_, ?_⟩
    · rw [readReply, hGateway]
      exact getLast?_gatewayBlocks hFamily p
    · have hPlace := (found.gateway hPresent).mpr hStep
      obtain ⟨hHolds, -⟩ := found.holds RTAX_GATEWAY (by decide) p (hPlace.symm.trans hGateway)
      exact prefix_bytesAt (holds_append.mp hHolds).1 28
    · rw [readReply, hGateway, take_bytesAt (by decide)]
      exact dropLast_gatewayBlocks hFamily p

variable {s : Process} {descriptor : Int} {pid : UInt32} {accepts : Bytes → Bool}

/-- Whatever the socket receives for others and however the kernel fills up addresses, the
function ends with the reply, finds the gateway in it if and only if it goes over the
destination by the number of bytes that the kernel has given it, returns the interface and
what it takes for the gateway, and closes the socket. -/
theorem findDefaultRoute_reply {actions : List Action} (run : Transition.Runs step init actions s)
    (hValid : descriptor ≠ invalidSocket) (hFresh : Fresh s descriptor) {family : UInt8} {sent : Bytes}
    (hSent : sendRequest accepts pid = some (family, sent)) (reply : Reply)
    (hFits : (reply.encode padding pid).length ≤ bufferSize) {others : List Bytes}
    (hOthers : ∀ datagram ∈ others, Other pid datagram) (later : List Bytes) (heap : Memory) (fails : Bool) :
    ∃ t memory, reply.Found padding memory ∧ reply.Answers env padding family (readReply env family memory) ∧
      findDefaultRoute env descriptor heap pid accepts fails (others ++ reply.encode padding pid :: later) s =
        some (t, .ok (readReply env family memory)) ∧
      Restored [descriptor] s t := by
  obtain ⟨memory, hReceive, hHeader, hAddresses⟩ :=
    @receive_reply padding (routeBuffer heap sent) pid reply hFits others hOthers later
  have found := reply.found hFits hHeader hAddresses
  have hTalk : askKernel heap pid accepts fails (others ++ reply.encode padding pid :: later) =
      some (.ok (family, memory)) := by
    simp only [askKernel, hSent, hReceive]
  obtain ⟨t, hSocket, restored⟩ := onKernelSocket_restores (referenced_of_runs run) hFresh
    (askKernel heap pid accepts fails (others ++ reply.encode padding pid :: later))
  rw [hTalk, if_neg hValid] at hSocket
  rw [opensOf, if_neg hValid] at restored
  refine ⟨t, memory, found, reply.answers env (family_of_sendRequest hSent) hHeader found, ?_, restored⟩
  rw [findDefaultRoute, hTalk, hSocket]
  rfl

/-- Addresses are filled up to words of four bytes. -/
def wordPadding : Padding where
  size length := if length = 0 then 4 else roundup length 4
  le length := by
    split_ifs with h
    · omega
    · exact le_roundup length 4
  empty := by decide

/-- The interface in the reply of a home network: a destination and a gateway in IPv4, and an
empty netmask. -/
def homeReply : Reply where
  front := Vector.replicate 3 0
  index := 4
  flags := Vector.replicate 6 0
  addrs := 7
  metrics := Vector.replicate 68 0
  address i :=
    if i = 0 then ⟨16 :: 2 :: List.replicate 14 0, by decide, fun _ => by decide⟩
    else if i = 1 then ⟨[16, 2, 0, 0, 192, 168, 1, 1] ++ List.replicate 8 0, by decide, fun _ => by decide⟩
    else ⟨[], by decide, fun h => absurd rfl h⟩

/-- The reply of a home network, behind a datagram of another kind. -/
theorem findDefaultRoute_reply_home :
    ∃ t memory, homeReply.Found wordPadding memory ∧
      homeReply.Answers ⟨fun _ => some "en0", "", 0⟩ wordPadding AF_INET
        (readReply ⟨fun _ => some "en0", "", 0⟩ AF_INET memory) ∧
      findDefaultRoute ⟨fun _ => some "en0", "", 0⟩ 4 (fun _ => 255) 100 (fun _ => true) false
        ([List.replicate 24 0] ++ homeReply.encode wordPadding 100 :: []) oneSocket =
          some (t, .ok (readReply ⟨fun _ => some "en0", "", 0⟩ AF_INET memory)) ∧
      Restored [4] oneSocket t :=
  @findDefaultRoute_reply ⟨fun _ => some "en0", "", 0⟩ wordPadding oneSocket 4 100 (fun _ => true) [.makeSocket 3]
    (Transition.runs_iff_foldlM.mpr rfl) (by decide) (fun _ => by decide) AF_INET _ rfl homeReply
    (by rw [Reply.encode, List.length_append, Reply.length_header]; decide) [List.replicate 24 0]
    (fun datagram h => by
      obtain rfl := List.mem_singleton.mp h
      exact ⟨by decide, by decide⟩) [] _ false

/-- A destination in IPv6 has 28 bytes, behind which `NEXT_SA` skips the first four of the
gateway. -/
example : homeReply.InStep wordPadding RTAX_DST ∧ wordPadding.size 28 = 28 ∧ stride 28 = 32 := by decide

/-! ### The heap behind the buffer -/

variable {memory' : Memory}

/-- One step of the walk is at most 256 octets. -/
theorem nextSa_le (memory : Memory) (ap : Nat) : nextSa memory ap ≤ ap + 256 := by
  have hRoundup := roundup_le (memory ap).toNat_lt
  unfold nextSa
  split_ifs <;> omega

/-- The memories are the same as far as the buffer goes. -/
def Agree (memory memory' : Memory) : Prop := ∀ i < bufferSize, memory i = memory' i

/-- Storing a datagram keeps two memories in agreement. -/
theorem agree_store (h : Agree memory memory') (bytes : Bytes) : Agree (memory.store 0 bytes) (memory'.store 0 bytes) :=
  fun i hi => by rw [Memory.store, Memory.store, h i hi]

theorem Agree.header (h : Agree memory memory') : RouteHeader.read memory = RouteHeader.read memory' :=
  RouteHeader.read_congr fun i hi => h i (Nat.lt_trans hi (by decide))

/-- Receiving keeps two memories in agreement, whichever datagram ends it. -/
theorem agree_receive (pid : UInt32) (datagrams : List Bytes) (h : Agree memory memory') :
    Option.Rel Agree (receive pid memory datagrams) (receive pid memory' datagrams) := by
  induction datagrams generalizing memory memory' with
  | nil => exact .none
  | cons datagram datagrams ih =>
      have hStored := agree_store h (datagram.take bufferSize)
      rw [receive, receive, hStored.header]
      split_ifs
      · exact .some hStored
      · exact ih hStored

/-- Reads inside the buffer agree. -/
theorem Agree.bytesAt (h : Agree memory memory') {offset size : Nat} (hRoom : offset + size ≤ bufferSize) :
    bytesAt memory offset size = bytesAt memory' offset size :=
  List.map_congr_left fun i hi => h (offset + i) (by have hi := List.mem_range.mp hi; omega)

/-- The gateway is behind one address at most, and so inside the buffer. -/
theorem Agree.readReply (h : Agree memory memory') (family : UInt8) :
    readReply env family memory = readReply env family memory' := by
  have hNext : nextSa memory sizeofRtMsghdr = nextSa memory' sizeofRtMsghdr := by
    rw [nextSa, nextSa, h sizeofRtMsghdr (by decide)]
  have hBlocks : ∀ p ≤ sizeofRtMsghdr + 256, gatewayBlocks family memory p = gatewayBlocks family memory' p := by
    intro p hp
    have hRoom : p + 28 ≤ bufferSize := Nat.le_trans (Nat.add_le_add_right hp 28) (by decide)
    rw [gatewayBlocks, gatewayBlocks, h.bytesAt hRoom, h.bytesAt (Nat.le_trans (by omega) hRoom)]
  rw [Apple.readReply, Apple.readReply, rtiInfo, rtiInfo, gateway_place, gateway_place, h.header, hNext]
  by_cases hGateway : Present (RouteHeader.read memory').addrs RTAX_GATEWAY
  · rw [if_pos hGateway]
    dsimp only
    rw [hBlocks]
    split_ifs
    · exact nextSa_le memory' sizeofRtMsghdr
    · exact Nat.le_add_right _ _
  · rw [if_neg hGateway]

/-- Whatever is received, the route does not depend on the heap behind the buffer, although
the loop over the addresses can run into it. -/
theorem findDefaultRoute_congr (heap heap' : Memory) (fails : Bool) (datagrams : List Bytes) :
    findDefaultRoute env descriptor heap pid accepts fails datagrams s =
      findDefaultRoute env descriptor heap' pid accepts fails datagrams s := by
  have hTalk : (askKernel heap pid accepts fails datagrams).map (Except.map fun reply => readReply env reply.1 reply.2) =
      (askKernel heap' pid accepts fails datagrams).map (Except.map fun reply => readReply env reply.1 reply.2) := by
    unfold askKernel
    rcases sendRequest accepts pid with _ | ⟨family, sent⟩
    · rfl
    · have hBuffers : Agree (routeBuffer heap sent) (routeBuffer heap' sent) := fun i hi => by
        rw [routeBuffer, routeBuffer, if_pos hi, if_pos hi]
      have hReceived := agree_receive pid datagrams hBuffers
      dsimp only
      generalize receive pid (routeBuffer heap sent) datagrams = received at hReceived ⊢
      generalize receive pid (routeBuffer heap' sent) datagrams = received' at hReceived ⊢
      cases hReceived with
      | none => rfl
      | some hAgree => exact congrArg (fun route => some (Except.ok route)) (hAgree.readReply env family)
  rw [findDefaultRoute, findDefaultRoute, map_onKernelSocket, map_onKernelSocket, hTalk]

/-! ### The socket -/

/-- On both systems: unless it waits forever, the function leaves no descriptor open and no
handle changed, whichever of its calls fails. -/
theorem findDefaultRoute_restores {actions : List Action} (run : Transition.Runs step init actions s)
    (hFresh : Fresh s descriptor) (heap : Memory) (sent fails : Bool) (datagrams : List Bytes) :
    (∃ t, findDefaultRouteOn env descriptor heap pid sent fails datagrams s =
        (if descriptor = invalidSocket then some (.error .system)
          else Networking.askKernel env heap pid sent fails datagrams).map (t, ·) ∧
      Restored (opensOf descriptor) s t) ∧
    ∃ t, findDefaultRoute env descriptor heap pid accepts fails datagrams s =
        (if descriptor = invalidSocket then some (.error .system)
          else (askKernel heap pid accepts fails datagrams).map
            (Except.map fun reply => readReply env reply.1 reply.2)).map (t, ·) ∧
      Restored (opensOf descriptor) s t := by
  have referenced := referenced_of_runs run
  refine ⟨onKernelSocket_restores referenced hFresh _, ?_⟩
  rw [findDefaultRoute, map_onKernelSocket]
  exact onKernelSocket_restores referenced hFresh _

/-- The request is sent, and `recv` fails. -/
theorem findDefaultRoute_restores_deaf :
    (∃ t, findDefaultRouteOn ⟨fun _ => none, "", 0⟩ 4 (fun _ => 0) 100 true true [] oneSocket =
        some (t, .error .system) ∧ Restored [4] oneSocket t) ∧
    ∃ t, findDefaultRoute ⟨fun _ => none, "", 0⟩ 4 (fun _ => 0) 100 (fun _ => true) true [] oneSocket =
        some (t, .error .system) ∧ Restored [4] oneSocket t :=
  @findDefaultRoute_restores ⟨fun _ => none, "", 0⟩ oneSocket 4 100 (fun _ => true) [.makeSocket 3]
    (Transition.runs_iff_foldlM.mpr rfl) (fun _ => by decide) (fun _ => 0) true true []

end ImpactSockets.Networking.Apple
