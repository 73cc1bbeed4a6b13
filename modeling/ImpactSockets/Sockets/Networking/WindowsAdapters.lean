import ImpactSockets.Sockets.BasicSocket
import ImpactSockets.Sockets.Networking.WindowsInterfaces

/-! The interfaces on Windows, where the adapters are written into a buffer that may turn out
to be too small. -/
namespace ImpactSockets.Networking.Windows

open BasicSocket (ImpactError)

/-- A `sockaddr_in` behind its family: the port, the address and the padding. -/
abbrev SockaddrIn := Vector UInt8 14

/-- `sin_addr`. -/
def inAddr (address : SockaddrIn) : Vector UInt8 4 := Vector.ofFn fun i => address[2 + i.val]

def setInAddr (memory : SockaddrIn) (value : Vector UInt8 4) : SockaddrIn :=
  Vector.ofFn fun i => if h : 2 ≤ i.val ∧ i.val < 6 then value[i.val - 2] else memory[i]

/-- The memory that `new` hands out for the addresses of an entry. -/
structure Fresh where
  mask : SockaddrIn
  broadcast : SockaddrIn
  broadcast6 : SockaddrIn6
deriving DecidableEq, Repr

variable (lengthToMask : UInt8 → Vector UInt8 4)

/-- `set_ipv4_interface`, with `ConvertLengthToIpv4Mask`. Its expression on `unsigned long` is
one on each byte. -/
def setIpv4Interface (fresh : Fresh) (address : SockaddrIn) (prefixLength : UInt8) (token : NetInterface) :
    NetInterface :=
  let mask := setInAddr fresh.mask (lengthToMask prefixLength)
  let a := inAddr mask
  let b := inAddr address
  let broadcast := setInAddr fresh.broadcast (Vector.ofFn fun i => a[i] &&& b[i] ||| ~~~a[i])
  { token with
    ipv4 := true
    ipv6 := false
    address := some (.inet address)
    netmask := some (.inet mask)
    broadcast := some (.inet broadcast) }

/-- `get_interface_type`, of the `IF_TYPE` codes. -/
def getInterfaceType (code : UInt32) : InterfaceType :=
  if code = 6 then .ethernet
  else if code = 71 then .wifi
  else if code = 144 then .firewire
  else if code = 23 then .ppp
  else if code = 37 then .atm
  else .other

/-- `IP_ADAPTER_UNICAST_ADDRESS`, with the memory that is at hand when it is visited. -/
structure UnicastAddress where
  sockaddr : SocketAddress
  onLinkPrefixLength : UInt8
  fresh : Fresh
deriving DecidableEq, Repr

/-- `IP_ADAPTER_ADDRESSES`, with the friendly name narrowed. -/
structure Adapter where
  adapterName : String
  friendlyName : String
  ifType : UInt32
  flags : UInt32
  ifIndex : UInt32
  ipv6IfIndex : UInt32
  physicalAddress : Bytes
  unicast : List UnicastAddress
deriving DecidableEq, Repr

/-- What is listed of an address of an adapter, whose token is given. -/
def unicastToken (token : NetInterface) (ifIndex ipv6IfIndex : UInt32) (address : UnicastAddress) :
    Option NetInterface :=
  match address.sockaddr with
  | .inet data =>
      some { setIpv4Interface lengthToMask address.fresh data address.onLinkPrefixLength token with
        ifaceIndex := ifIndex }
  | .inet6 data =>
      some { setIpv6Interface address.fresh.broadcast6 data address.onLinkPrefixLength token with
        ifaceIndex := ipv6IfIndex }
  | .link _ _ => none
  | .other _ => some token

def traverseUnicast (list : List NetInterface) (token : NetInterface) (ifIndex ipv6IfIndex : UInt32)
    (addresses : List UnicastAddress) : List NetInterface :=
  addresses.foldl (fun list address =>
    match unicastToken lengthToMask token ifIndex ipv6IfIndex address with
    | some token => list ++ [token]
    | none => list) list

def adapterToken (adapter : Adapter) : NetInterface where
  name := adapter.adapterName
  friendlyName := adapter.friendlyName
  type := getInterfaceType adapter.ifType
  ifaceIndex := adapter.ifIndex
  flags := adapter.flags
  address := none
  netmask := none
  broadcast := none
  mac := if adapter.physicalAddress.length ≠ 0 then adapter.physicalAddress else List.replicate 6 0
  ipv4 := false
  ipv6 := false

def traverseAdapters (list : List NetInterface) (adapters : List Adapter) : List NetInterface :=
  adapters.foldl (fun list adapter =>
    traverseUnicast lengthToMask list (adapterToken adapter) adapter.ifIndex adapter.ipv6IfIndex adapter.unicast) list

/-! ### The buffer -/

/-- The blocks that have been allocated and not been freed. -/
abbrev Heap := List Nat

/-- `free`, which is undefined on anything else. -/
def free (block : Nat) (heap : Heap) : Option Heap := if block ∈ heap then some (heap.erase block) else none

def NO_ERROR : UInt32 := 0

def ERROR_BUFFER_OVERFLOW : UInt32 := 111

/-- What the system makes of `malloc` and of `GetAdaptersAddresses` on the block, which leaves
the adapters in it if there is no error, and in `size` what it takes to hold them all. -/
structure Attempt where
  block : Option Nat
  status : UInt32
  size : UInt32
  adapters : List Adapter
deriving DecidableEq, Repr

def MAX_RETRY : Nat := 3

/-- What the block holds. A call that fails has not written it. -/
def Attempt.filled (attempt : Attempt) : Option (List Adapter) :=
  if attempt.status = NO_ERROR then some attempt.adapters else none

/-- The answers of the system, one for each turn of the loop and each size. -/
abbrev System := Nat → UInt32 → Attempt

/-- The loop with some retries left; it ends with a block and what is in it, or without a
block. -/
def queryAdapters (system : System) : Nat → UInt32 → Heap →
    Option (Heap × Except ImpactError (Option (Nat × Option (List Adapter))))
  | 0, _, heap => some (heap, .ok none)
  | left + 1, size, heap =>
      let attempt := system (MAX_RETRY - (left + 1)) size
      match attempt.block with
      | none => some (heap, .error (.message "Memory allocation failed"))
      | some block =>
          -- no other status makes the code try again or keeps it from reading the block
          if attempt.status = ERROR_BUFFER_OVERFLOW then
            match free block (heap ++ [block]) with
            | none => none
            | some heap => queryAdapters system left attempt.size heap
          else some (heap ++ [block], .ok (some (block, attempt.filled)))

/-- `find_network_interfaces`. `none` is a wrong call of `free`, or a walk over a block that
nothing has been written to. -/
def findNetworkInterfaces (system : System) (heap : Heap) : Option (Heap × Except ImpactError (List NetInterface)) :=
  match queryAdapters system MAX_RETRY 15000 heap with
  | none => none
  | some (heap, .error error) => some (heap, .error error)
  | some (heap, .ok none) => some (heap, .error (.message "Inconsistent buffer size for Adapter Addresses"))
  | some (_, .ok (some (_, none))) => none
  | some (heap, .ok (some (block, some adapters))) =>
      let list := traverseAdapters lengthToMask [] adapters
      (free block heap).map fun heap => (heap, .ok list)

/-! ### One address -/

/-- A bit of an IPv4 address, the first one first. -/
def inBit (address : Vector UInt8 4) (k : Nat) : Bool := (address[k / 8]?.getD 0).toNat.testBit (7 - k % 8)

def width : SocketAddress → Nat
  | .inet _ => 32
  | .inet6 _ => 128
  | .link _ _ | .other _ => 0

def addressBit : SocketAddress → Nat → Bool
  | .inet data, k => inBit (inAddr data) k
  | .inet6 data, k => bit data k
  | .link _ _, _ | .other _, _ => false

/-- The netmask is ones in the prefix, and the broadcast address is the address there and ones
behind it. -/
def Masked (prefixLength : Nat) (address mask broadcast : SocketAddress) : Prop :=
  ∀ k < width address, addressBit mask k = decide (k < prefixLength) ∧
    addressBit broadcast k = if k < prefixLength then addressBit address k else true

/-- The entry for an address of an adapter. -/
structure Lists (adapter : Adapter) (unicast : UnicastAddress) (interface : NetInterface) : Prop where
  name : interface.name = adapter.adapterName ∧ interface.friendlyName = adapter.friendlyName
  hardware : interface.type = getInterfaceType adapter.ifType ∧ interface.flags = adapter.flags ∧
    interface.mac = (adapterToken adapter).mac
  address : interface.address = copySockaddrToPtr (some unicast.sockaddr)
  index : interface.ifaceIndex = if width unicast.sockaddr = 128 then adapter.ipv6IfIndex else adapter.ifIndex
  family : (interface.ipv4 = true ↔ width unicast.sockaddr = 32) ∧
    (interface.ipv6 = true ↔ width unicast.sockaddr = 128)
  masked : 0 < width unicast.sockaddr → (width unicast.sockaddr = 32 → unicast.onLinkPrefixLength.toNat ≤ 32) →
    ∃ mask broadcast, interface.netmask = some mask ∧ interface.broadcast = some broadcast ∧
      Masked unicast.onLinkPrefixLength.toNat unicast.sockaddr mask broadcast

variable {lengthToMask} {adapter : Adapter} {unicast : UnicastAddress}

/-- What `ConvertLengthToIpv4Mask` does with a length that an address has. -/
def Converts (lengthToMask : UInt8 → Vector UInt8 4) : Prop :=
  ∀ prefixLength : UInt8, prefixLength.toNat ≤ 32 → ∀ k < 32,
    inBit (lengthToMask prefixLength) k = decide (k < prefixLength.toNat)

/-- The address that was set is there. -/
theorem inAddr_setInAddr (memory : SockaddrIn) (value : Vector UInt8 4) : inAddr (setInAddr memory value) = value := by
  refine Vector.ext fun i hi => ?_
  have hIndex : 2 ≤ 2 + i ∧ 2 + i < 6 := by omega
  simp [inAddr, setInAddr, hIndex]

/-- The broadcast address keeps the bits under the mask and sets the others. -/
theorem inBit_broadcast (a b : Vector UInt8 4) {k : Nat} (hk : k < 32) :
    inBit (Vector.ofFn fun i => a[i] &&& b[i] ||| ~~~a[i]) k = if inBit a k then inBit b k else true := by
  have hIndex : k / 8 < 4 := by omega
  simp only [inBit, Vector.getElem?_eq_getElem hIndex, Option.getD_some, Vector.getElem_ofFn]
  exact testBit_broadcast _ _ (by omega)

/-- The mask and the broadcast address belong to the prefix length. -/
theorem masked_ipv4 (hConvert : Converts lengthToMask) (fresh : Fresh) (data : SockaddrIn) {prefixLength : UInt8}
    (hLength : prefixLength.toNat ≤ 32) (token : NetInterface) :
    ∃ mask broadcast, (setIpv4Interface lengthToMask fresh data prefixLength token).netmask = some mask ∧
      (setIpv4Interface lengthToMask fresh data prefixLength token).broadcast = some broadcast ∧
      Masked prefixLength.toNat (.inet data) mask broadcast := by
  refine ⟨_, _, rfl, rfl, fun k hk => ?_⟩
  have hMask := hConvert prefixLength hLength k hk
  simp only [addressBit, inAddr_setInAddr]
  refine ⟨hMask, ?_⟩
  rw [inBit_broadcast _ _ hk, hMask]
  simp

/-- The mask and the broadcast address of IPv6 belong to the prefix length, whatever it is. -/
theorem masked_ipv6 (fresh : Fresh) (data : SockaddrIn6) (prefixLength : UInt8) (token : NetInterface) :
    ∃ mask broadcast, (setIpv6Interface fresh.broadcast6 data prefixLength token).netmask = some mask ∧
      (setIpv6Interface fresh.broadcast6 data prefixLength token).broadcast = some broadcast ∧
      Masked prefixLength.toNat (.inet6 data) mask broadcast := by
  obtain ⟨mask, broadcast, hMask, hBroadcast, hBits⟩ :=
    setIpv6Interface_bits fresh.broadcast6 data prefixLength token
  exact ⟨_, _, hMask, hBroadcast, hBits⟩

/-- An entry says of its adapter and address what the system has said. -/
theorem lists_of_token (hConvert : Converts lengthToMask) {interface : NetInterface}
    (h : unicastToken lengthToMask (adapterToken adapter) adapter.ifIndex adapter.ipv6IfIndex unicast =
      some interface) :
    Lists adapter unicast interface := by
  obtain ⟨sockaddr, prefixLength, fresh⟩ := unicast
  cases sockaddr with
  | inet data =>
      obtain rfl := Option.some.inj h
      exact ⟨⟨rfl, rfl⟩, ⟨rfl, rfl, rfl⟩, rfl, rfl,
        ⟨by simp [setIpv4Interface, width], by simp [setIpv4Interface, width]⟩,
        fun _ hLength => masked_ipv4 hConvert fresh data (hLength rfl) (adapterToken adapter)⟩
  | inet6 data =>
      obtain rfl := Option.some.inj h
      exact ⟨⟨rfl, rfl⟩, ⟨rfl, rfl, rfl⟩, rfl, rfl,
        ⟨by simp [setIpv6Interface, width], by simp [setIpv6Interface, width]⟩,
        fun _ _ => masked_ipv6 fresh data prefixLength (adapterToken adapter)⟩
  | link type address => cases h
  | other family =>
      obtain rfl := Option.some.inj h
      exact ⟨⟨rfl, rfl⟩, ⟨rfl, rfl, rfl⟩, rfl, rfl, ⟨by simp [adapterToken, width], by simp [adapterToken, width]⟩,
        fun hWidth => absurd hWidth (Nat.lt_irrefl 0)⟩

/-! ### All addresses -/

def isLink : SocketAddress → Bool
  | .link _ _ => true
  | .inet _ | .inet6 _ | .other _ => false

/-- The addresses of the adapters that are not links, each with its adapter. -/
def visits (adapters : List Adapter) : List (Adapter × UnicastAddress) :=
  adapters.flatMap fun adapter => (adapter.unicast.filter fun unicast => !isLink unicast.sockaddr).map (adapter, ·)

/-- The entries are those of the addresses, in their order. -/
def AllListed (visited : List (Adapter × UnicastAddress)) (list : List NetInterface) : Prop :=
  List.Forall₂ (fun visit interface => Lists visit.1 visit.2 interface) visited list

/-- An address of the link layer is not listed. -/
theorem unicastToken_link (h : isLink unicast.sockaddr = true) (token : NetInterface) (ifIndex ipv6IfIndex : UInt32) :
    unicastToken lengthToMask token ifIndex ipv6IfIndex unicast = none := by
  obtain ⟨sockaddr, prefixLength, fresh⟩ := unicast
  cases sockaddr with
  | link type address => rfl
  | inet data => cases h
  | inet6 data => cases h
  | other family => cases h

/-- Every address that is not of the link layer is listed. -/
theorem unicastToken_listed (h : isLink unicast.sockaddr = false) (token : NetInterface)
    (ifIndex ipv6IfIndex : UInt32) :
    ∃ interface, unicastToken lengthToMask token ifIndex ipv6IfIndex unicast = some interface := by
  obtain ⟨sockaddr, prefixLength, fresh⟩ := unicast
  cases sockaddr with
  | link type address => cases h
  | inet data => exact ⟨_, rfl⟩
  | inet6 data => exact ⟨_, rfl⟩
  | other family => exact ⟨_, rfl⟩

/-- The addresses of one adapter are listed, in their order. -/
theorem traverseUnicast_listed (hConvert : Converts lengthToMask) {before : List (Adapter × UnicastAddress)}
    {list : List NetInterface} (hList : AllListed before list) (adapter : Adapter) (addresses : List UnicastAddress) :
    AllListed (before ++ (addresses.filter fun unicast => !isLink unicast.sockaddr).map (adapter, ·))
      (traverseUnicast lengthToMask list (adapterToken adapter) adapter.ifIndex adapter.ipv6IfIndex addresses) := by
  induction addresses generalizing before list with
  | nil => simpa [traverseUnicast] using hList
  | cons unicast addresses ih =>
      rw [traverseUnicast, List.foldl_cons, ← traverseUnicast]
      cases hLink : isLink unicast.sockaddr with
      | true =>
          rw [unicastToken_link hLink]
          simpa [hLink] using ih hList
      | false =>
          obtain ⟨interface, hToken⟩ :=
            @unicastToken_listed lengthToMask unicast hLink (adapterToken adapter) adapter.ifIndex adapter.ipv6IfIndex
          have hNext : AllListed (before ++ [(adapter, unicast)]) (list ++ [interface]) :=
            List.rel_append hList (.cons (lists_of_token hConvert hToken) .nil)
          rw [hToken]
          simpa [hLink] using ih hNext

/-- The addresses of all adapters are listed, in their order. -/
theorem traverseAdapters_listed (hConvert : Converts lengthToMask) {before : List (Adapter × UnicastAddress)}
    {list : List NetInterface} (hList : AllListed before list) (adapters : List Adapter) :
    AllListed (before ++ visits adapters) (traverseAdapters lengthToMask list adapters) := by
  induction adapters generalizing before list with
  | nil => simpa [traverseAdapters, visits] using hList
  | cons adapter adapters ih =>
      rw [traverseAdapters, List.foldl_cons, ← traverseAdapters]
      have hNext := ih (traverseUnicast_listed hConvert hList adapter adapter.unicast)
      rwa [List.append_assoc] at hNext

/-! ### The loop -/

/-- The size of the buffer of a turn. -/
def asked (system : System) : Nat → UInt32
  | 0 => 15000
  | i + 1 => (system i (asked system i)).size

/-- The turn gets a buffer and finds it too small. -/
def Overflows (system : System) (i : Nat) : Prop :=
  (∃ block, (system i (asked system i)).block = some block) ∧ (system i (asked system i)).status = ERROR_BUFFER_OVERFLOW

variable {system : System} {heap : Heap}

/-- The block that was allocated last can be freed. -/
theorem free_new {block : Nat} (h : block ∉ heap) : free block (heap ++ [block]) = some heap := by
  rw [free, if_pos (by simp), List.erase_append_right _ h]
  simp

/-- A turn that overflows frees its buffer and asks for a greater one. -/
theorem queryAdapters_overflow (hFresh : ∀ i size block, (system i size).block = some block → block ∉ heap) {left : Nat}
    (hLeft : left < MAX_RETRY) (h : Overflows system (MAX_RETRY - (left + 1))) :
    queryAdapters system (left + 1) (asked system (MAX_RETRY - (left + 1))) heap =
      queryAdapters system left (asked system (MAX_RETRY - left)) heap := by
  obtain ⟨⟨block, hBlock⟩, hStatus⟩ := h
  have hNext : MAX_RETRY - left = MAX_RETRY - (left + 1) + 1 := by omega
  rw [queryAdapters, hBlock]
  dsimp only
  rw [if_pos hStatus, free_new (hFresh _ _ block hBlock), hNext]
  rfl

/-- After some overflows the loop goes on with the size that was asked for. -/
theorem queryAdapters_after (hFresh : ∀ i size block, (system i size).block = some block → block ∉ heap) {i : Nat}
    (hLeft : i ≤ MAX_RETRY) (h : ∀ j < i, Overflows system j) :
    queryAdapters system MAX_RETRY 15000 heap = queryAdapters system (MAX_RETRY - i) (asked system i) heap := by
  induction i with
  | zero => rfl
  | succ i ih =>
      have hBefore := ih (by omega) fun j hj => h j (by omega)
      have hTurn : MAX_RETRY - i = MAX_RETRY - (i + 1) + 1 := by omega
      have hIndex : MAX_RETRY - (MAX_RETRY - (i + 1) + 1) = i := by omega
      have hNext : MAX_RETRY - (MAX_RETRY - (i + 1)) = i + 1 := by omega
      have hOverflow := @queryAdapters_overflow system heap hFresh (MAX_RETRY - (i + 1)) (by omega)
      rw [hIndex, hNext] at hOverflow
      rw [hBefore, hTurn, hOverflow (h i (Nat.lt_succ_self i))]

/-- As long as no call fails but for the size, each buffer is freed once, also when the
function throws. It asks three times for a buffer that is large enough, and lists the
addresses that it finds there which are not links, in their order, each with the netmask of
its prefix. A call that fails otherwise leaves it with a block that it cannot walk over. -/
theorem findNetworkInterfaces_listed (hConvert : Converts lengthToMask)
    (hFresh : ∀ i size block, (system i size).block = some block → block ∉ heap) :
    ((∀ i < MAX_RETRY, Overflows system i) → findNetworkInterfaces lengthToMask system heap =
        some (heap, .error (.message "Inconsistent buffer size for Adapter Addresses"))) ∧
      ∀ i < MAX_RETRY, (∀ j < i, Overflows system j) → ¬Overflows system i →
        ((system i (asked system i)).block = none → findNetworkInterfaces lengthToMask system heap =
          some (heap, .error (.message "Memory allocation failed"))) ∧
        ∀ block, (system i (asked system i)).block = some block →
          ((system i (asked system i)).status = NO_ERROR →
            ∃ list, findNetworkInterfaces lengthToMask system heap = some (heap, .ok list) ∧
              AllListed (visits (system i (asked system i)).adapters) list) ∧
          ((system i (asked system i)).status ≠ NO_ERROR → findNetworkInterfaces lengthToMask system heap = none) := by
  refine ⟨fun h => ?_, fun i hi h hLast => ⟨fun hBlock => ?_, fun block hBlock => ?_⟩⟩
  · rw [findNetworkInterfaces, queryAdapters_after hFresh (Nat.le_refl MAX_RETRY) h]
    rfl
  · have hTurn : MAX_RETRY - i = MAX_RETRY - i - 1 + 1 := by omega
    have hIndex : MAX_RETRY - (MAX_RETRY - i - 1 + 1) = i := by omega
    rw [findNetworkInterfaces, queryAdapters_after hFresh hi.le h, hTurn, queryAdapters, hIndex, hBlock]
  · have hTurn : MAX_RETRY - i = MAX_RETRY - i - 1 + 1 := by omega
    have hIndex : MAX_RETRY - (MAX_RETRY - i - 1 + 1) = i := by omega
    have hStatus : (system i (asked system i)).status ≠ ERROR_BUFFER_OVERFLOW := fun hStatus =>
      hLast ⟨⟨block, hBlock⟩, hStatus⟩
    have hQuery : queryAdapters system MAX_RETRY 15000 heap =
        some (heap ++ [block], .ok (some (block, (system i (asked system i)).filled))) := by
      rw [queryAdapters_after hFresh hi.le h, hTurn, queryAdapters, hIndex, hBlock]
      dsimp only
      rw [if_neg hStatus]
    constructor
    · intro hDone
      refine ⟨_, ?_, traverseAdapters_listed hConvert .nil (system i (asked system i)).adapters⟩
      rw [findNetworkInterfaces, hQuery, Attempt.filled, if_pos hDone]
      dsimp only
      rw [free_new (hFresh _ _ block hBlock)]
      rfl
    · intro hFailed
      rw [findNetworkInterfaces, hQuery, Attempt.filled, if_neg hFailed]

/-- The bytes of a netmask. -/
def maskOf (prefixLength : UInt8) : Vector UInt8 4 :=
  Vector.ofFn fun i => UInt8.ofNat (0xFF <<< (8 - (prefixLength.toNat - 8 * i.val)))

theorem converts_maskOf : Converts maskOf := by
  have hMask : ∀ length : Fin 33, ∀ k : Fin 32,
      inBit (maskOf (UInt8.ofNat length.val)) k.val = decide (k.val < length.val) := by
    decide +kernel
  intro prefixLength hLength k hk
  have hBit := hMask ⟨prefixLength.toNat, by omega⟩ ⟨k, hk⟩
  rwa [UInt8.ofNat_toNat] at hBit

/-- An adapter with an IPv4 address and a link. -/
def ethernet : Adapter where
  adapterName := "{4D36E972}"
  friendlyName := "Ethernet"
  ifType := 6
  flags := 0
  ifIndex := 7
  ipv6IfIndex := 8
  physicalAddress := [2, 0, 0, 0, 0, 1]
  unicast :=
    [⟨.inet (Vector.replicate 14 10), 24, ⟨Vector.replicate 14 1, Vector.replicate 14 2, Vector.replicate 26 3⟩⟩,
      ⟨.link 0 [], 0, ⟨Vector.replicate 14 1, Vector.replicate 14 2, Vector.replicate 26 3⟩⟩]

/-- The first buffer is too small. -/
def growing : System
  | 0, _ => ⟨some 0, ERROR_BUFFER_OVERFLOW, 20000, []⟩
  | _ + 1, size => ⟨some 1, NO_ERROR, size, [ethernet]⟩

/-- A list that outgrows its first buffer. -/
theorem findNetworkInterfaces_listed_growing :
    ∃ list, findNetworkInterfaces maskOf growing [5] = some ([5], .ok list) ∧ AllListed (visits [ethernet]) list := by
  have hFresh : ∀ i size block, (growing i size).block = some block → block ∉ [5] := by
    intro i size block h
    cases i <;> cases h <;> decide
  have hFirst : ∀ j < 1, Overflows growing j := by
    intro j hj
    obtain rfl : j = 0 := by omega
    exact ⟨⟨0, rfl⟩, rfl⟩
  have hTurn := (findNetworkInterfaces_listed converts_maskOf hFresh).2 1 (by decide) hFirst fun h =>
    absurd h.2 (by decide)
  exact (hTurn.2 1 rfl).1 rfl

end ImpactSockets.Networking.Windows
