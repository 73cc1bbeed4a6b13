import ImpactSockets.Sockets.Networking.DefaultRoute
import ImpactSockets.Sockets.Networking.NetlinkSocket

/-! The loops of `find_default_route` over the bytes of the buffer, with the macros of the
system headers written out. Bytes behind what has been received are part of the memory, so
that a result that does not depend on them is one that does not read them. -/
namespace ImpactSockets.Networking

/-- `NLMSG_ALIGN` and `RTA_ALIGN`. -/
def align (length : Nat) : Nat := (length + 3) / 4 * 4

/-- Aligning does not make a length smaller. -/
theorem le_align (length : Nat) : length ≤ align length := by
  unfold align
  omega

variable (env : Environment)

/-- The inner loop, over `rtattr`s of four bytes and their data. -/
def readAttributes (memory : Memory) (routeAttribute : Nat) (routeLength : Int) (g : Gathered) : Gathered :=
  let rtaLen := (memory.uint16 routeAttribute).toNat
  if 4 ≤ routeLength ∧ 4 ≤ rtaLen ∧ rtaLen ≤ routeLength then
    readAttributes memory (routeAttribute + align rtaLen) (routeLength - align rtaLen)
      (g.read env ⟨memory.uint16 (routeAttribute + 2), memory.uint32 (routeAttribute + 4)⟩)
  else g
termination_by routeLength.toNat
decreasing_by
  have hAlign := le_align (memory.uint16 routeAttribute).toNat
  omega

/-- The outer loop. The `rtmsg` is behind the header of 16 bytes and has 12. -/
def readRoutes (memory : Memory) (netlinkMessageHeader : Nat) (length : Int) (result : NetRoute) : NetRoute :=
  let nlmsgLen := (NetlinkHeader.read memory netlinkMessageHeader).len.toNat
  if 16 ≤ length ∧ 16 ≤ nlmsgLen ∧ nlmsgLen ≤ length then
    let rtmFamily := memory (netlinkMessageHeader + 16)
    let rtmTable := memory (netlinkMessageHeader + 20)
    if rtmFamily ≠ AF_INET ∨ rtmTable ≠ RT_TABLE_MAIN then result
    else
      let g := readAttributes env memory (netlinkMessageHeader + 28) (nlmsgLen - 28) ⟨env.staleName, 0, 0, 0⟩
      if g.destinationA = 0 then ⟨g.ifname, g.ifaceIndex, some ⟨rtmFamily, g.gatewayA⟩⟩
      else readRoutes memory (netlinkMessageHeader + align nlmsgLen) (length - align nlmsgLen) result
  else result
termination_by length.toNat
decreasing_by
  have hAlign := le_align (NetlinkHeader.read memory netlinkMessageHeader).len.toNat
  omega

/-! ### What the loops read -/

variable {memory memory' : Memory}

/-- A field depends on its octets only. -/
theorem uint16_congr {offset count : Nat} (h : ∀ i < count, memory (offset + i) = memory' (offset + i)) (k : Nat)
    (hk : k + 2 ≤ count) : memory.uint16 (offset + k) = memory'.uint16 (offset + k) := by
  simp only [Memory.uint16, Nat.add_assoc]
  rw [h k (by omega), h (k + 1) (by omega)]

theorem uint32_congr {offset count : Nat} (h : ∀ i < count, memory (offset + i) = memory' (offset + i)) (k : Nat)
    (hk : k + 4 ≤ count) : memory.uint32 (offset + k) = memory'.uint32 (offset + k) := by
  simp only [Memory.uint32, Nat.add_assoc]
  rw [h k (by omega), h (k + 1) (by omega), h (k + 2) (by omega), h (k + 3) (by omega)]

/-- A header depends on its 16 octets only. -/
theorem header_congr {offset : Nat} (h : ∀ i < 16, memory (offset + i) = memory' (offset + i)) :
    NetlinkHeader.read memory offset = NetlinkHeader.read memory' offset := by
  have hLen := uint32_congr h 0 (by decide)
  rw [Nat.add_zero] at hLen
  rw [NetlinkHeader.read, NetlinkHeader.read, hLen, uint16_congr h 4 (by decide), uint16_congr h 6 (by decide),
    uint32_congr h 8 (by decide), uint32_congr h 12 (by decide)]

/-- The inner loop reads the first eight bytes of an attribute for which four are left. -/
theorem readAttributes_congr (routeAttribute : Nat) (routeLength : Int) (g : Gathered)
    (h : ∀ i : Nat, routeAttribute ≤ i → i < routeAttribute + routeLength + 4 → memory i = memory' i) :
    readAttributes env memory routeAttribute routeLength g =
      readAttributes env memory' routeAttribute routeLength g := by
  fun_induction readAttributes env memory routeAttribute routeLength g with
  | case1 routeAttribute routeLength g rtaLen hOk ih =>
      have hBytes : ∀ i < 8, memory (routeAttribute + i) = memory' (routeAttribute + i) := fun i hi =>
        h (routeAttribute + i) (by omega) (by omega)
      have hLength := uint16_congr hBytes 0 (by decide)
      rw [Nat.add_zero] at hLength
      have hAlign := le_align rtaLen
      rw [ih fun i hFrom hTo => h i (by omega) (by omega)]
      conv_rhs => rw [readAttributes]
      rw [← hLength, if_pos hOk, uint16_congr hBytes 2 (by decide), uint32_congr hBytes 4 (by decide)]
  | case2 routeAttribute routeLength g rtaLen hStop =>
      rw [readAttributes]
      by_cases hRoom : 4 ≤ routeLength
      · have hBytes : ∀ i < 2, memory (routeAttribute + i) = memory' (routeAttribute + i) := fun i hi =>
          h (routeAttribute + i) (by omega) (by omega)
        have hLength := uint16_congr hBytes 0 (by decide)
        rw [Nat.add_zero] at hLength
        rw [← hLength, if_neg hStop]
      · rw [if_neg fun hOk => hRoom hOk.1]

/-- What one turn of the outer loop reads. -/
theorem turn_congr {netlinkMessageHeader : Nat} {length : Int} (hRoom : 16 ≤ length)
    (h : ∀ i : Nat, netlinkMessageHeader ≤ i → i < netlinkMessageHeader + length + 5 → memory i = memory' i) :
    NetlinkHeader.read memory netlinkMessageHeader = NetlinkHeader.read memory' netlinkMessageHeader ∧
      memory (netlinkMessageHeader + 16) = memory' (netlinkMessageHeader + 16) ∧
      memory (netlinkMessageHeader + 20) = memory' (netlinkMessageHeader + 20) ∧
      ∀ (nlmsgLen : Nat) (g : Gathered), nlmsgLen ≤ length →
        readAttributes env memory (netlinkMessageHeader + 28) (nlmsgLen - 28) g =
          readAttributes env memory' (netlinkMessageHeader + 28) (nlmsgLen - 28) g := by
  refine ⟨header_congr fun i hi => h _ (by omega) (by omega), h _ (by omega) (by omega), h _ (by omega) (by omega), ?_⟩
  intro nlmsgLen g hLength
  exact readAttributes_congr env _ _ g fun i hFrom hTo => h i (by omega) (by omega)

/-- Whatever the bytes are, the walk over the messages ends and depends on none in front of
them and on none from the sixth behind them on. The `rtmsg` is read of a message that is
only a header. -/
theorem readRoutes_congr (netlinkMessageHeader : Nat) (length : Int) (result : NetRoute)
    (h : ∀ i : Nat, netlinkMessageHeader ≤ i → i < netlinkMessageHeader + length + 5 → memory i = memory' i) :
    readRoutes env memory netlinkMessageHeader length result =
      readRoutes env memory' netlinkMessageHeader length result := by
  fun_induction readRoutes env memory netlinkMessageHeader length result with
  | case1 netlinkMessageHeader length nlmsgLen hOk rtmFamily rtmTable hForeign =>
      obtain ⟨hHeader, hFamily, hTable, -⟩ := turn_congr env hOk.1 h
      rw [readRoutes, ← hHeader, ← hFamily, ← hTable, if_pos hOk, if_pos hForeign]
  | case2 netlinkMessageHeader length nlmsgLen hOk rtmFamily rtmTable hForeign g hDefault =>
      obtain ⟨hHeader, hFamily, hTable, hAttributes⟩ := turn_congr env hOk.1 h
      rw [readRoutes, ← hHeader, ← hFamily, ← hTable, ← hAttributes nlmsgLen _ hOk.2.2, if_pos hOk, if_neg hForeign,
        if_pos hDefault]
  | case3 netlinkMessageHeader length nlmsgLen hOk rtmFamily rtmTable hForeign g hDefault ih =>
      obtain ⟨hHeader, hFamily, hTable, hAttributes⟩ := turn_congr env hOk.1 h
      have hAlign := le_align nlmsgLen
      rw [ih fun i hFrom hTo => h i (by omega) (by omega)]
      conv_rhs => rw [readRoutes]
      rw [← hHeader, ← hFamily, ← hTable, ← hAttributes nlmsgLen _ hOk.2.2, if_pos hOk, if_neg hForeign,
        if_neg hDefault]
  | case4 netlinkMessageHeader length nlmsgLen hStop =>
      rw [readRoutes]
      by_cases hRoom : 16 ≤ length
      · rw [← (turn_congr env hRoom h).1, if_neg hStop]
      · rw [if_neg fun hOk => hRoom hOk.1]

end ImpactSockets.Networking
