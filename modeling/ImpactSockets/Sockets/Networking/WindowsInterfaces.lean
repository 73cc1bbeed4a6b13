import Mathlib.Data.Nat.Bitwise
import ImpactSockets.Sockets.Networking.Interfaces

/-! The netmask and the broadcast address of an interface on Windows, which tells of an
address only how long its prefix is. -/
namespace ImpactSockets.Networking.Windows

/-- A `sockaddr_in6` behind its family: the port, the flow, the address and the scope. -/
abbrev SockaddrIn6 := Vector UInt8 26

/-- `sin6_addr.u.Byte`. -/
def byte (address : SockaddrIn6) (i : Nat) : UInt8 := address[6 + i]?.getD 0

def setByte (address : SockaddrIn6) (i : Nat) (value : UInt8) : SockaddrIn6 := address.setIfInBounds (6 + i) value

/-- A loop over the first bytes of an address. -/
def setBytes (address : SockaddrIn6) (count : Nat) (value : Nat → UInt8) : SockaddrIn6 :=
  (List.range count).foldl (fun address i => setByte address i (value i)) address

def IPV6_ADDRESS_SIZE : Nat := 16

/-- The netmask. It has no use for a prefix that is longer than an address. -/
def ipv6Mask (prefixLength : UInt8) : SockaddrIn6 :=
  let mask := Vector.replicate 26 0
  if prefixLength ≤ 128 then
    let prefixBytes := prefixLength.toNat / 8
    let prefixBits := prefixLength.toNat % 8
    let mask := setBytes mask prefixBytes fun _ => 0xFF
    if prefixBytes < IPV6_ADDRESS_SIZE then setByte mask prefixBytes (UInt8.ofNat (0xFF <<< (8 - prefixBits)))
    else mask
  else setBytes mask IPV6_ADDRESS_SIZE fun _ => 0xFF

/-- `set_ipv6_interface`. The memory of the broadcast address is not initialised. -/
def setIpv6Interface (memory : SockaddrIn6) (address : SockaddrIn6) (prefixLength : UInt8) (token : NetInterface) :
    NetInterface :=
  let mask := ipv6Mask prefixLength
  let broadcast := setBytes memory IPV6_ADDRESS_SIZE fun i => byte mask i &&& byte address i ||| ~~~byte mask i
  { token with
    ipv4 := false
    ipv6 := true
    address := some (.inet6 address)
    netmask := some (.inet6 mask)
    broadcast := some (.inet6 broadcast) }

/-! ### Bytes -/

variable {address : SockaddrIn6}

/-- One byte of the address is set. -/
theorem byte_setByte {i : Nat} (hi : i < 16) (j : Nat) (value : UInt8) :
    byte (setByte address i value) j = if i = j then value else byte address j := by
  unfold byte setByte
  rw [Vector.getElem?_setIfInBounds]
  split_ifs with h h' <;> simp_all
  omega

/-- The first bytes of the address are set. -/
theorem byte_setBytes {count : Nat} (hCount : count ≤ 16) (value : Nat → UInt8) (j : Nat) :
    byte (setBytes address count value) j = if j < count then value j else byte address j := by
  induction count with
  | zero => rfl
  | succ count ih =>
      rw [setBytes, List.range_succ, List.foldl_append, List.foldl_cons, List.foldl_nil, ← setBytes,
        byte_setByte (by omega), ih (by omega)]
      split_ifs with h h' h'' <;> simp_all <;> omega

/-! ### Bits -/

/-- A bit of the address, the first one first. -/
def bit (address : SockaddrIn6) (k : Nat) : Bool := (byte address (k / 8)).toNat.testBit (7 - k % 8)

/-- The byte in which the prefix ends. -/
theorem testBit_prefixByte : ∀ bits j : Fin 8,
    (UInt8.ofNat (0xFF <<< (8 - bits.val))).toNat.testBit (7 - j.val) = decide (j.val < bits.val) := by
  decide

theorem testBit_ones (j : Fin 8) : (0xFF : UInt8).toNat.testBit (7 - j.val) = true := by
  revert j
  decide

/-- The broadcast address, bit by bit. -/
theorem testBit_broadcast (mask address : UInt8) {n : Nat} (hn : n < 8) :
    (mask &&& address ||| ~~~mask).toNat.testBit n =
      if mask.toNat.testBit n then address.toNat.testBit n else true := by
  have hBits : (mask &&& address ||| ~~~mask).toNat.testBit n =
      (mask.toBitVec.getLsbD n && address.toBitVec.getLsbD n || !mask.toBitVec.getLsbD n) := by
    change (mask &&& address ||| ~~~mask).toBitVec.getLsbD n = _
    rw [UInt8.toBitVec_or, UInt8.toBitVec_and, UInt8.toBitVec_not, BitVec.getLsbD_or, BitVec.getLsbD_and,
      BitVec.getLsbD_not, decide_eq_true hn, Bool.true_and]
  rw [hBits]
  change _ = if mask.toBitVec.getLsbD n then address.toBitVec.getLsbD n else true
  cases mask.toBitVec.getLsbD n <;> simp

/-- The bytes of a netmask. -/
theorem byte_ipv6Mask (prefixLength : UInt8) {i : Nat} (hi : i < 16) : byte (ipv6Mask prefixLength) i =
    if 8 * i + 8 ≤ prefixLength.toNat then 0xFF
    else UInt8.ofNat (0xFF <<< (8 - (prefixLength.toNat - 8 * i))) := by
  have hZero : byte (Vector.replicate 26 0) i = 0 := by
    have hIndex : 6 + i < 26 := by omega
    simp [byte, hIndex]
  have hDiv := Nat.div_add_mod prefixLength.toNat 8
  have hMod := Nat.mod_lt prefixLength.toNat (show 0 < 8 by decide)
  unfold ipv6Mask IPV6_ADDRESS_SIZE
  by_cases hLength : prefixLength.toNat ≤ 128
  · have hTest : prefixLength ≤ 128 := UInt8.le_iff_toNat_le.mpr hLength
    have hBytes (j : Nat) := @byte_setBytes (Vector.replicate 26 0) (prefixLength.toNat / 8) (by omega)
      (fun _ => 0xFF) j
    rw [if_pos hTest]
    by_cases hInner : prefixLength.toNat / 8 < 16
    · rw [if_pos hInner, byte_setByte hInner, hBytes, hZero]
      by_cases hLast : prefixLength.toNat / 8 = i
      · rw [if_pos hLast, if_neg (by omega), show prefixLength.toNat - 8 * i = prefixLength.toNat % 8 by omega]
      rw [if_neg hLast]
      by_cases hBefore : i < prefixLength.toNat / 8
      · rw [if_pos hBefore, if_pos (by omega)]
      · rw [if_neg hBefore, if_neg (by omega), show prefixLength.toNat - 8 * i = 0 by omega]
        rfl
    · rw [if_neg hInner, hBytes, if_pos (by omega), if_pos (by omega)]
  · have hTest : ¬prefixLength ≤ 128 := fun hTest => hLength (UInt8.le_iff_toNat_le.mp hTest)
    rw [if_neg hTest, byte_setBytes (Nat.le_refl 16), if_pos hi, if_pos (by omega)]

/-- The bits of the prefix are ones, and the others are zeros. -/
theorem bit_ipv6Mask (prefixLength : UInt8) {k : Nat} (hk : k < 128) :
    bit (ipv6Mask prefixLength) k = decide (k < prefixLength.toNat) := by
  have hDiv := Nat.div_add_mod k 8
  have hMod := Nat.mod_lt k (show 0 < 8 by decide)
  rw [bit, byte_ipv6Mask prefixLength (by omega)]
  split_ifs with hWhole
  · rw [testBit_ones ⟨k % 8, hMod⟩, eq_comm, decide_eq_true_iff]
    omega
  · rw [testBit_prefixByte ⟨prefixLength.toNat - 8 * (k / 8), by omega⟩ ⟨k % 8, hMod⟩]
    dsimp only
    exact decide_eq_decide.mpr (by omega)

/-- The netmask has the prefix, and the broadcast address the bits of the address in the
prefix and ones behind it, whatever the memory held. -/
theorem setIpv6Interface_bits (memory address : SockaddrIn6) (prefixLength : UInt8) (token : NetInterface) :
    ∃ mask broadcast, (setIpv6Interface memory address prefixLength token).netmask = some (.inet6 mask) ∧
      (setIpv6Interface memory address prefixLength token).broadcast = some (.inet6 broadcast) ∧
      ∀ k < 128, bit mask k = decide (k < prefixLength.toNat) ∧
        bit broadcast k = if k < prefixLength.toNat then bit address k else true := by
  refine ⟨_, _, rfl, rfl, fun k hk => ⟨bit_ipv6Mask prefixLength hk, ?_⟩⟩
  have hIndex : k / 8 < IPV6_ADDRESS_SIZE := by
    unfold IPV6_ADDRESS_SIZE
    omega
  have hMask : (byte (ipv6Mask prefixLength) (k / 8)).toNat.testBit (7 - k % 8) = decide (k < prefixLength.toNat) :=
    bit_ipv6Mask prefixLength hk
  rw [bit, byte_setBytes (Nat.le_refl IPV6_ADDRESS_SIZE), if_pos hIndex, testBit_broadcast _ _ (by omega), hMask]
  by_cases h : k < prefixLength.toNat <;> simp [h, bit]

end ImpactSockets.Networking.Windows
