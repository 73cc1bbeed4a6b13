import ImpactSockets.Utils.AbnfOps

/-! The network interfaces of `networking.cpp`, as `getifaddrs` lists them and as the
library returns them. -/
namespace ImpactSockets.Networking

/-- A `sockaddr` of the families that the traversal tells apart. That of a link has a type
and an address of its own on macOS. -/
inductive SocketAddress where
  | inet (data : Vector UInt8 14)
  | inet6 (data : Vector UInt8 26)
  | link (type : UInt8) (address : Bytes)
  | other (family : UInt16)
deriving DecidableEq, Repr

inductive InterfaceType where
  | other
  | ethernet
  | wifi
  | firewire
  | ppp
  | atm
deriving DecidableEq, Repr

/-- `struct ifaddrs`, without the pointer to the next one. -/
structure IfAddrs where
  name : String
  flags : UInt32
  addr : Option SocketAddress
  netmask : Option SocketAddress
  broadaddr : Option SocketAddress
deriving DecidableEq, Repr

structure NetInterface where
  name : String
  friendlyName : String
  type : InterfaceType
  ifaceIndex : UInt32
  flags : UInt32
  address : Option SocketAddress
  netmask : Option SocketAddress
  broadcast : Option SocketAddress
  mac : Bytes
  ipv4 : Bool
  ipv6 : Bool
deriving DecidableEq, Repr

/-- `copy_sockaddr_to_ptr`. -/
def copySockaddrToPtr : Option SocketAddress → Option SocketAddress
  | some (.inet data) => some (.inet data)
  | some (.inet6 data) => some (.inet6 data)
  | _ => none

/-- The address is of `AF_PACKET` on Linux, of `AF_LINK` on macOS. -/
def IfAddrs.IsLink (target : IfAddrs) : Prop := ∃ type address, target.addr = some (.link type address)

instance (target : IfAddrs) : Decidable target.IsLink :=
  match h : target.addr with
  | some (.link type address) => isTrue ⟨type, address, h⟩
  | some (.inet _) | some (.inet6 _) | some (.other _) | none =>
      isFalse fun ⟨_, _, hLink⟩ => by rw [h] at hLink; cases hLink

/-- The token of `traverse_links` up to its type and its hardware address. -/
def linkToken (nameToIndex : String → UInt32) (target : IfAddrs) : NetInterface where
  name := target.name
  friendlyName := target.name
  type := .other
  ifaceIndex := nameToIndex target.name
  flags := target.flags
  address := copySockaddrToPtr target.addr
  netmask := copySockaddrToPtr target.netmask
  broadcast := copySockaddrToPtr target.broadaddr
  mac := []
  ipv4 := target.addr matches some (.inet _)
  ipv6 := target.addr matches some (.inet6 _)

end ImpactSockets.Networking
