import ImpactSockets.Library.BlockStream
import ImpactSockets.Sockets.Networking.RouteWalk

/-! Route messages as the kernel writes them: headers with lengths, attributes filled up to
four bytes. The loops of `find_default_route` read them back, whatever stands behind them. -/
namespace ImpactSockets.Networking

open BlockStream

/-! ### Bytes in memory -/

/-- The bytes stand at the offset. -/
def Memory.Holds (memory : Memory) (offset : Nat) (bytes : Bytes) : Prop :=
  ∀ i (hi : i < bytes.length), memory (offset + i) = bytes[i]

variable {memory : Memory} {offset : Nat}

/-- Memory holds two texts in sequence if it holds each in its place. -/
theorem holds_append {front back : Bytes} :
    memory.Holds offset (front ++ back) ↔ memory.Holds offset front ∧ memory.Holds (offset + front.length) back := by
  constructor
  · intro h
    refine ⟨fun i hi => ?_, fun i hi => ?_⟩
    · rw [h i (by simp; omega), List.getElem_append_left hi]
    · rw [Nat.add_assoc, h (front.length + i) (by simp; omega), List.getElem_append_right (by omega)]
      simp
  · rintro ⟨hFront, hBack⟩ i hi
    rcases Nat.lt_or_ge i front.length with hi' | hi'
    · rw [List.getElem_append_left hi', hFront i hi']
    · obtain ⟨k, rfl⟩ := Nat.exists_eq_add_of_le hi'
      rw [List.getElem_append_right hi', ← Nat.add_assoc, hBack k (by simpa using hi)]
      simp

/-- Memory holds one octet in front of a text. -/
theorem holds_cons {octet : UInt8} {bytes : Bytes} :
    memory.Holds offset (octet :: bytes) ↔ memory offset = octet ∧ memory.Holds (offset + 1) bytes := by
  rw [← List.singleton_append, holds_append]
  refine and_congr_left' ⟨fun h => h 0 Nat.one_pos, fun h i hi => ?_⟩
  obtain rfl : i = 0 := Nat.lt_one_iff.mp hi
  exact h

/-- A 16-bit field has its lowest octet first. -/
theorem uint16_toNat (memory : Memory) (offset : Nat) :
    (memory.uint16 offset).toNat = ofLittleEndian [memory offset, memory (offset + 1)] := by
  have hSmall : (memory (offset + 1)).toNat <<< 8 % 65536 = (memory (offset + 1)).toNat <<< 8 := by
    have hOctet := (memory (offset + 1)).toNat_lt
    rw [Nat.shiftLeft_eq]
    omega
  calc
    (memory.uint16 offset).toNat = ofLittleEndian [memory offset, memory (offset + 1), 0, 0] := by
      rw [← or_shiftLeft_eq_ofLittleEndian]
      simp [Memory.uint16, hSmall]
    _ = ofLittleEndian [memory offset, memory (offset + 1)] := rfl

/-- A 32-bit field has its lowest octet first. -/
theorem uint32_toNat (memory : Memory) (offset : Nat) :
    (memory.uint32 offset).toNat =
      ofLittleEndian [memory offset, memory (offset + 1), memory (offset + 2), memory (offset + 3)] := by
  have hSmall (octet : UInt8) (shift : Nat) (h : shift ≤ 24) :
      octet.toNat <<< shift % 4294967296 = octet.toNat <<< shift := Nat.mod_eq_of_lt (shiftLeft_lt octet h)
  rw [← or_shiftLeft_eq_ofLittleEndian]
  simp [Memory.uint32, hSmall]

theorem Memory.Holds.ofLittleEndian_uint16 {octets : Bytes} (h : memory.Holds offset octets)
    (hLength : octets.length = 2) :
    (memory.uint16 offset).toNat = ofLittleEndian octets := by
  obtain ⟨octet0, octet1, rfl⟩ := List.length_eq_two.mp hLength
  obtain ⟨h0, h1, -⟩ := by simpa only [holds_cons] using h
  rw [uint16_toNat, h0, h1]

theorem Memory.Holds.ofLittleEndian_uint32 {octets : Bytes} (h : memory.Holds offset octets)
    (hLength : octets.length = 4) :
    (memory.uint32 offset).toNat = ofLittleEndian octets := by
  obtain ⟨octet0, octets, rfl⟩ := List.exists_cons_of_length_eq_add_one hLength
  obtain ⟨octet1, octet2, octet3, rfl⟩ := List.length_eq_three.mp (Nat.succ.inj hLength)
  obtain ⟨h0, h1, h2, h3, -⟩ := by simpa only [holds_cons] using h
  rw [uint32_toNat, h0, h1, h2, h3]

/-- A number of two bytes is read back. -/
theorem Memory.Holds.uint16 {n : Nat} (h : memory.Holds offset (littleEndian 2 n)) (hn : n < 2 ^ 16) :
    (memory.uint16 offset).toNat = n := by
  rw [h.ofLittleEndian_uint16 (length_littleEndian 2 n)]
  exact (ofLittleEndian_littleEndian 2 n).trans (Nat.mod_eq_of_lt hn)

/-- A number of four bytes is read back. -/
theorem Memory.Holds.uint32 {n : Nat} (h : memory.Holds offset (littleEndian 4 n)) (hn : n < 2 ^ 32) :
    (memory.uint32 offset).toNat = n := by
  rw [h.ofLittleEndian_uint32 (length_littleEndian 4 n)]
  exact (ofLittleEndian_littleEndian 4 n).trans (Nat.mod_eq_of_lt hn)

/-! ### Attributes -/

/-- What is aligned already does not matter to the alignment. -/
theorem align_add (length : Nat) {filled : Nat} (h : 4 ∣ filled) : align (filled + length) = filled + align length := by
  unfold align
  omega

/-- The types whose data the loop reads. -/
def IsRead (type : UInt16) : Prop := type = RTA_OIF ∨ type = RTA_GATEWAY ∨ type = RTA_DST

/-- A `rtattr` with its data. The length fits its field, and the data that is read is there. -/
structure WireAttribute where
  type : UInt16
  payload : Bytes
  fits : 4 + payload.length < 2 ^ 16
  word : IsRead type → 4 ≤ payload.length

namespace WireAttribute

def encode (a : WireAttribute) : Bytes :=
  littleEndian 2 (4 + a.payload.length) ++ littleEndian 2 a.type.toNat ++ a.payload ++
    List.replicate (align a.payload.length - a.payload.length) 0

/-- What the loop reads of the attribute. -/
def routeAttribute (a : WireAttribute) : RouteAttribute := ⟨a.type, UInt32.ofNat (ofLittleEndian (a.payload.take 4))⟩

/-- An attribute with its header and its padding. -/
theorem length_encode (a : WireAttribute) : a.encode.length = align (4 + a.payload.length) := by
  have hAlign := le_align a.payload.length
  rw [align_add _ (Nat.dvd_refl 4)]
  simp only [encode, List.length_append, length_littleEndian, List.length_replicate]
  omega

end WireAttribute

/-- Data of attributes that are not read does not matter. -/
theorem Gathered.read_congr (env : Environment) (g : Gathered) {type : UInt16} {data data' : UInt32}
    (h : IsRead type → data = data') : g.read env ⟨type, data⟩ = g.read env ⟨type, data'⟩ := by
  by_cases hRead : IsRead type
  · rw [h hRead]
  · obtain ⟨hIndex, hGateway, hDestination⟩ : type ≠ RTA_OIF ∧ type ≠ RTA_GATEWAY ∧ type ≠ RTA_DST := by
      simpa [IsRead] using hRead
    simp only [Gathered.read, if_neg hIndex, if_neg hGateway, if_neg hDestination]

variable (env : Environment)

/-- One turn of the inner loop. -/
theorem readAttributes_encode (a : WireAttribute) (g : Gathered) (rest : Nat) (h : memory.Holds offset a.encode) :
    readAttributes env memory offset ((a.encode.length + rest : Nat) : Int) g =
      readAttributes env memory (offset + a.encode.length) rest (g.read env a.routeAttribute) := by
  simp only [WireAttribute.encode, holds_append, length_littleEndian, List.length_append, Nat.reduceAdd] at h
  obtain ⟨⟨⟨hLength, hType⟩, hPayload⟩, -⟩ := h
  have hLength := hLength.uint16 a.fits
  have hType : memory.uint16 (offset + 2) = a.type := UInt16.toNat.inj (hType.uint16 a.type.toNat_lt)
  have hData : IsRead a.type → memory.uint32 (offset + 4) = a.routeAttribute.data := by
    intro hRead
    have hTake : (a.payload.take 4).length = 4 := by simpa using a.word hRead
    rw [← List.take_append_drop 4 a.payload, holds_append] at hPayload
    rw [WireAttribute.routeAttribute, ← hPayload.1.ofLittleEndian_uint32 hTake, UInt32.ofNat_toNat]
  have hRead : g.read env ⟨memory.uint16 (offset + 2), memory.uint32 (offset + 4)⟩ = g.read env a.routeAttribute := by
    rw [hType]
    exact Gathered.read_congr env g hData
  have hAlign := le_align (4 + a.payload.length)
  rw [readAttributes, hLength, a.length_encode, if_pos (by omega), hRead]
  congr 1
  omega

/-- The inner loop reads all attributes, in their order. -/
theorem readAttributes_eq (attributes : List WireAttribute) (g : Gathered)
    (h : memory.Holds offset (attributes.flatMap WireAttribute.encode)) :
    readAttributes env memory offset (attributes.flatMap WireAttribute.encode).length g =
      (attributes.map WireAttribute.routeAttribute).foldl (Gathered.read env) g := by
  induction attributes generalizing offset g with
  | nil =>
      rw [readAttributes, if_neg (by simp)]
      rfl
  | cons a attributes ih =>
      rw [List.flatMap_cons, holds_append] at h
      rw [List.flatMap_cons, List.length_append, readAttributes_encode env a g _ h.1, ih _ h.2]
      rfl

/-! ### Messages -/

namespace NetlinkHeader

def encode (header : NetlinkHeader) : Bytes :=
  littleEndian 4 header.len.toNat ++ littleEndian 2 header.type.toNat ++ littleEndian 2 header.flags.toNat ++
    littleEndian 4 header.seq.toNat ++ littleEndian 4 header.pid.toNat

/-- The netlink header. -/
theorem length_encode (header : NetlinkHeader) : header.encode.length = 16 := by
  simp [encode]

/-- A header is read back. -/
theorem read_encode {header : NetlinkHeader} (h : memory.Holds offset header.encode) : read memory offset = header := by
  simp only [encode, holds_append, length_littleEndian, List.length_append, Nat.reduceAdd] at h
  obtain ⟨⟨⟨⟨hLen, hType⟩, hFlags⟩, hSeq⟩, hPid⟩ := h
  have hLen : memory.uint32 offset = header.len := UInt32.toNat.inj (hLen.uint32 header.len.toNat_lt)
  have hType : memory.uint16 (offset + 4) = header.type := UInt16.toNat.inj (hType.uint16 header.type.toNat_lt)
  have hFlags : memory.uint16 (offset + 6) = header.flags := UInt16.toNat.inj (hFlags.uint16 header.flags.toNat_lt)
  have hSeq : memory.uint32 (offset + 8) = header.seq := UInt32.toNat.inj (hSeq.uint32 header.seq.toNat_lt)
  have hPid : memory.uint32 (offset + 12) = header.pid := UInt32.toNat.inj (hPid.uint32 header.pid.toNat_lt)
  rw [read, hLen, hType, hFlags, hSeq, hPid]

end NetlinkHeader

/-- A `nlmsghdr` with its `rtmsg` and the attributes. -/
structure WireMessage where
  type : UInt16
  flags : UInt16
  seq : UInt32
  pid : UInt32
  family : UInt8
  dstLen : UInt8
  srcLen : UInt8
  tos : UInt8
  table : UInt8
  protocol : UInt8
  scope : UInt8
  kind : UInt8
  routeFlags : UInt32
  attributes : List WireAttribute

namespace WireMessage

/-- The `rtmsg`. -/
def body (m : WireMessage) : Bytes :=
  [m.family, m.dstLen, m.srcLen, m.tos, m.table, m.protocol, m.scope, m.kind] ++ littleEndian 4 m.routeFlags.toNat

def payload (m : WireMessage) : Bytes := m.attributes.flatMap WireAttribute.encode

def header (m : WireMessage) : NetlinkHeader := ⟨UInt32.ofNat (28 + m.payload.length), m.type, m.flags, m.seq, m.pid⟩

def encode (m : WireMessage) : Bytes := m.header.encode ++ m.body ++ m.payload

/-- What the loop reads of the message. -/
def routeMessage (m : WireMessage) : RouteMessage :=
  ⟨m.family, m.table, m.attributes.map WireAttribute.routeAttribute⟩

/-- A message with its two headers. -/
theorem length_encode (m : WireMessage) : m.encode.length = 28 + m.payload.length := by
  simp only [encode, body, List.length_append, m.header.length_encode, length_littleEndian, List.length_cons,
    List.length_nil, Nat.reduceAdd]

/-- The attributes fill whole words. -/
theorem dvd_length_payload (m : WireMessage) : 4 ∣ m.payload.length := by
  unfold payload
  induction m.attributes with
  | nil => exact Nat.dvd_zero 4
  | cons a attributes ih =>
      rw [List.flatMap_cons, List.length_append, a.length_encode]
      exact Nat.dvd_add (Nat.dvd_mul_left 4 _) ih

/-- A message is aligned, as its attributes are. -/
theorem align_length (m : WireMessage) : align m.encode.length = m.encode.length := by
  have hDvd := m.dvd_length_payload
  rw [m.length_encode]
  unfold align
  omega

end WireMessage

/-- What stands in front of the attributes. -/
theorem Memory.Holds.message {m : WireMessage} (h : memory.Holds offset m.encode) :
    NetlinkHeader.read memory offset = m.header ∧ memory (offset + 16) = m.family ∧ memory (offset + 20) = m.table ∧
      memory.Holds (offset + 28) m.payload := by
  simp only [WireMessage.encode, WireMessage.body, holds_append, m.header.length_encode, length_littleEndian,
    List.length_append, List.length_cons, List.length_nil, Nat.reduceAdd] at h
  obtain ⟨⟨hHeader, hBody, -⟩, hPayload⟩ := h
  exact ⟨NetlinkHeader.read_encode hHeader, hBody 0 (by simp), hBody 4 (by simp), hPayload⟩

/-- The outer loop goes through the messages as the search does. -/
theorem readRoutes_eq (messages : List WireMessage) (result : NetRoute)
    (h : memory.Holds offset (messages.flatMap WireMessage.encode))
    (hFits : (messages.flatMap WireMessage.encode).length < 2 ^ 32) :
    readRoutes env memory offset (messages.flatMap WireMessage.encode).length result =
      findRoute env result (messages.map WireMessage.routeMessage) := by
  induction messages generalizing offset with
  | nil =>
      rw [readRoutes, if_neg (by simp)]
      rfl
  | cons m messages ih =>
      rw [List.flatMap_cons, holds_append] at h
      rw [List.flatMap_cons, List.length_append] at hFits ⊢
      obtain ⟨hHeader, hFamily, hTable, hPayload⟩ := h.1.message
      have hLength := m.length_encode
      have hLen : (NetlinkHeader.read memory offset).len.toNat = m.encode.length := by
        rw [hHeader, m.length_encode]
        exact UInt32.toNat_ofNat_of_lt' (show _ < 2 ^ 32 by omega)
      have hGather : readAttributes env memory (offset + 28) ((m.encode.length : Int) - 28) ⟨env.staleName, 0, 0, 0⟩ =
          gather env m.routeMessage.attributes := by
        rw [hLength, show ((28 + m.payload.length : Nat) : Int) - 28 = m.payload.length by omega]
        exact readAttributes_eq env m.attributes _ hPayload
      rw [readRoutes, hLen, if_pos (by omega), hFamily, hTable, hGather, m.align_length]
      rw [show ((m.encode.length + (messages.flatMap WireMessage.encode).length : Nat) : Int) - m.encode.length =
        (messages.flatMap WireMessage.encode).length by omega, ih h.2 (by omega)]
      rfl

end ImpactSockets.Networking
