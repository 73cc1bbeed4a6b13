import Mathlib.Data.List.Induction

/-! The search of `find_default_route` in the route messages of the kernel. A message is
what the macros of the system headers let the loop read of it. -/
namespace ImpactSockets.Networking

def AF_INET : UInt8 := 2
def RT_TABLE_MAIN : UInt8 := 254
def RTA_DST : UInt16 := 1
def RTA_OIF : UInt16 := 4
def RTA_GATEWAY : UInt16 := 5
def RTA_PREFSRC : UInt16 := 7

/-- A route attribute with the first four bytes of its data. -/
structure RouteAttribute where
  type : UInt16
  data : UInt32
deriving DecidableEq, Repr

/-- A `rtmsg` with the attributes that follow it. -/
structure RouteMessage where
  family : UInt8
  table : UInt8
  attributes : List RouteAttribute
deriving DecidableEq, Repr

/-- The `sockaddr_in` of a gateway. -/
structure Gateway where
  family : UInt8
  address : UInt32
deriving DecidableEq, Repr

structure NetRoute where
  name : String
  ifaceIndex : UInt32
  gateway : Option Gateway
deriving DecidableEq, Repr

/-- What the loop depends on besides the messages: `if_indextoname`, and what the members
and the array hold that the source does not initialise. -/
structure Environment where
  indexToName : UInt32 → Option String
  staleName : String
  staleIndex : UInt32

/-- The variables of one turn of the outer loop. -/
structure Gathered where
  ifname : String
  gatewayA : UInt32
  destinationA : UInt32
  ifaceIndex : UInt32

variable (env : Environment)

/-- The `switch` over the type of an attribute. -/
def Gathered.read (g : Gathered) (a : RouteAttribute) : Gathered :=
  if a.type = RTA_OIF then { g with ifaceIndex := a.data, ifname := (env.indexToName a.data).getD g.ifname }
  else if a.type = RTA_GATEWAY then { g with gatewayA := a.data }
  else if a.type = RTA_PREFSRC then g
  else if a.type = RTA_DST then { g with destinationA := a.data }
  else g

/-- The inner loop. -/
def gather (attributes : List RouteAttribute) : Gathered :=
  attributes.foldl (Gathered.read env) ⟨env.staleName, 0, 0, 0⟩

/-- The outer loop. A message of another family or table ends it. -/
def findRoute (result : NetRoute) : List RouteMessage → NetRoute
  | [] => result
  | m :: messages =>
      if m.family ≠ AF_INET ∨ m.table ≠ RT_TABLE_MAIN then result
      else
        let g := gather env m.attributes
        if g.destinationA = 0 then ⟨g.ifname, g.ifaceIndex, some ⟨m.family, g.gatewayA⟩⟩
        else findRoute result messages

/-- The route before the loop. -/
def emptyRoute : NetRoute := ⟨"", env.staleIndex, none⟩

def findDefaultRoute (messages : List RouteMessage) : NetRoute := findRoute env (emptyRoute env) messages

/-! ### Routes -/

namespace RouteMessage

/-- The value of an attribute of a type, the last one where there are more. -/
def value (m : RouteMessage) (type : UInt16) : UInt32 :=
  (((m.attributes.filter (·.type = type)).getLast?).map (·.data)).getD 0

/-- The filter of the outer loop. -/
def Foreign (m : RouteMessage) : Prop := m.family ≠ AF_INET ∨ m.table ≠ RT_TABLE_MAIN

/-- A default route of the main table: no attribute has a destination but zero. -/
def IsDefault (m : RouteMessage) : Prop :=
  m.family = AF_INET ∧ m.table = RT_TABLE_MAIN ∧ ∀ a ∈ m.attributes, a.type = RTA_DST → a.data = 0

/-- The loop does not go on behind the message. -/
def Stops (m : RouteMessage) : Prop := m.Foreign ∨ m.value RTA_DST = 0

instance : DecidablePred Foreign := fun _ => inferInstanceAs (Decidable (_ ∨ _))
instance : DecidablePred IsDefault := fun _ => inferInstanceAs (Decidable (_ ∧ _ ∧ _))
instance : DecidablePred Stops := fun _ => inferInstanceAs (Decidable (_ ∨ _))

/-- Two messages name the same gateway and the same interface. -/
def SameRoute (m n : RouteMessage) : Prop :=
  m.value RTA_GATEWAY = n.value RTA_GATEWAY ∧ m.value RTA_OIF = n.value RTA_OIF

end RouteMessage

open RouteMessage

/-- The route is the one of the first default route, or none if there is none. -/
def FindsDefault (messages : List RouteMessage) : Prop :=
  match messages.find? (·.IsDefault) with
  | some m =>
      (findDefaultRoute env messages).gateway = some ⟨AF_INET, m.value RTA_GATEWAY⟩ ∧
        (findDefaultRoute env messages).ifaceIndex = m.value RTA_OIF
  | none => findDefaultRoute env messages = emptyRoute env

/-- The first message the loop does not skip is the first default route or one to the same
gateway over the same interface; where there is no default route, it is a message of
another family or table. -/
def StopsAtDefault (messages : List RouteMessage) : Prop :=
  match messages.find? (·.Stops), messages.find? (·.IsDefault) with
  | none, _ => True
  | some m, none => m.Foreign
  | some m, some n => ¬m.Foreign ∧ m.SameRoute n

/-! ### The loops -/

/-- The last attribute of a type is the one that counts. -/
theorem value_append (family table : UInt8) (attributes : List RouteAttribute) (a : RouteAttribute) (type : UInt16) :
    RouteMessage.value ⟨family, table, attributes ++ [a]⟩ type =
      if a.type = type then a.data else RouteMessage.value ⟨family, table, attributes⟩ type := by
  by_cases h : a.type = type <;> simp [RouteMessage.value, List.filter_append, h]

/-- The inner loop leaves the last value of each type. -/
theorem gather_eq (m : RouteMessage) :
    (gather env m.attributes).gatewayA = m.value RTA_GATEWAY ∧
      (gather env m.attributes).destinationA = m.value RTA_DST ∧
      (gather env m.attributes).ifaceIndex = m.value RTA_OIF := by
  obtain ⟨family, table, attributes⟩ := m
  induction attributes using List.reverseRecOn with
  | nil => exact ⟨rfl, rfl, rfl⟩
  | append_singleton attributes a ih =>
      obtain ⟨hGateway, hDestination, hIndex⟩ := ih
      have hRead : gather env (attributes ++ [a]) = (gather env attributes).read env a := by
        simp [gather]
      simp only [hRead, value_append, Gathered.read]
      split_ifs <;> simp_all [RTA_OIF, RTA_GATEWAY, RTA_DST, RTA_PREFSRC]

/-- A default route has no destination. -/
theorem RouteMessage.IsDefault.value_eq {m : RouteMessage} (h : m.IsDefault) : m.value RTA_DST = 0 := by
  unfold value
  cases hLast : (m.attributes.filter (·.type = RTA_DST)).getLast? with
  | none => rfl
  | some a =>
      obtain ⟨hMem, hType⟩ := List.mem_filter.mp (List.mem_of_getLast? hLast)
      exact h.2.2 a hMem (by simpa using hType)

/-- A default route is one of IPv4 in the main table. -/
theorem RouteMessage.IsDefault.not_foreign {m : RouteMessage} (h : m.IsDefault) : ¬m.Foreign := by
  simp [Foreign, h.1, h.2.1]

/-- The route that the outer loop takes from a message. -/
theorem findRoute_eq (result : NetRoute) (messages : List RouteMessage) :
    findRoute env result messages =
      match messages.find? (·.Stops) with
      | none => result
      | some m =>
          if m.Foreign then result
          else ⟨(gather env m.attributes).ifname, m.value RTA_OIF, some ⟨AF_INET, m.value RTA_GATEWAY⟩⟩ := by
  induction messages with
  | nil => rfl
  | cons m messages ih =>
      obtain ⟨hGateway, hDestination, hIndex⟩ := gather_eq env m
      by_cases hForeign : m.Foreign
      · have hStops : m.Stops := .inl hForeign
        have hTest : m.family ≠ AF_INET ∨ m.table ≠ RT_TABLE_MAIN := hForeign
        simp only [findRoute, if_pos hTest, List.find?_cons, hStops, decide_true, if_pos hForeign]
      · have hTest : ¬(m.family ≠ AF_INET ∨ m.table ≠ RT_TABLE_MAIN) := hForeign
        have hFamily : m.family = AF_INET := by simpa using (not_or.mp hTest).1
        by_cases hZero : m.value RTA_DST = 0
        · have hStops : m.Stops := .inr hZero
          simp only [findRoute, if_neg hTest, hDestination, hZero, if_true, List.find?_cons, hStops, decide_true,
            if_neg hForeign, hGateway, hIndex]
          rw [hFamily]
        · have hStops : ¬m.Stops := not_or.mpr ⟨hForeign, hZero⟩
          simp only [findRoute, if_neg hTest, hDestination, hZero, if_false, List.find?_cons, hStops, decide_false, ih]

/-- In a message with at most one destination the loop recognises a default route. -/
theorem stops_iff_of_single {m : RouteMessage} (h : (m.attributes.filter (·.type = RTA_DST)).length ≤ 1) :
    m.Stops ↔ m.Foreign ∨ m.IsDefault := by
  constructor
  · rintro (hForeign | hZero)
    · exact .inl hForeign
    · by_cases hForeign : m.Foreign
      · exact .inl hForeign
      · obtain ⟨hFamily, hTable⟩ : m.family = AF_INET ∧ m.table = RT_TABLE_MAIN := by
          simpa [Foreign] using hForeign
        refine .inr ⟨hFamily, hTable, fun a hMem hType => ?_⟩
        have hOnly : m.attributes.filter (·.type = RTA_DST) = [a] := by
          have hFilter : a ∈ m.attributes.filter (·.type = RTA_DST) := by simp [hMem, hType]
          obtain ⟨b, hb⟩ := List.length_eq_one_iff.mp (Nat.le_antisymm h (List.length_pos_of_mem hFilter))
          rw [hb] at hFilter ⊢
          rw [List.mem_singleton.mp hFilter]
        simpa [value, hOnly] using hZero
  · rintro (hForeign | hDefault)
    · exact .inl hForeign
    · exact .inr hDefault.value_eq

/-- Where no message repeats its destination, the loop needs the messages in front of the
first default route to be of its family and table. -/
theorem stopsAtDefault_iff_of_single {messages : List RouteMessage}
    (h : ∀ m ∈ messages, (m.attributes.filter (·.type = RTA_DST)).length ≤ 1) :
    StopsAtDefault messages ↔ ∀ before n after, messages = before ++ n :: after → n.IsDefault →
      (∀ m ∈ before, ¬m.IsDefault) → ∀ m ∈ before, ¬m.Foreign := by
  unfold StopsAtDefault
  constructor
  · rintro hStops before n after rfl hDefault hBefore m hMem hForeign
    -- The first stop stands in front of the default route, and is none itself.
    have hFind : ((before ++ n :: after).find? (·.IsDefault)) = some n := by
      rw [List.find?_eq_some_iff_append]
      exact ⟨by simpa using hDefault, before, after, rfl, by simpa using hBefore⟩
    obtain ⟨stop, hStop⟩ : ∃ stop, before.find? (·.Stops) = some stop := by
      rw [← Option.isSome_iff_exists, List.find?_isSome]
      exact ⟨m, hMem, decide_eq_true (.inl hForeign)⟩
    have hFirst : (before ++ n :: after).find? (·.Stops) = some stop := by simp [hStop]
    rw [hFirst, hFind] at hStops
    have hStopMem := List.mem_of_find?_eq_some hStop
    have hStopped := List.find?_some hStop
    rcases (stops_iff_of_single (h stop (by simp [hStopMem]))).mp (by simpa using hStopped) with hStop | hStop
    · exact hStops.1 hStop
    · exact hBefore stop hStopMem hStop
  · intro hSplit
    cases hStop : messages.find? (·.Stops) with
    | none => trivial
    | some stop =>
        have hStopped := (stops_iff_of_single (h stop (List.mem_of_find?_eq_some hStop))).mp
          (by simpa using List.find?_some hStop)
        cases hDefault : messages.find? (·.IsDefault) with
        | none =>
            refine hStopped.resolve_right fun hStop' => ?_
            simpa [hStop'] using List.find?_eq_none.mp hDefault stop (List.mem_of_find?_eq_some hStop)
        | some n =>
            obtain ⟨hn, before, after, rfl, hBefore⟩ := List.find?_eq_some_iff_append.mp hDefault
            have hn : n.IsDefault := by simpa using hn
            have hBefore : ∀ m ∈ before, ¬m.IsDefault := by simpa using hBefore
            have hGoesOn : before.find? (·.Stops) = none := by
              simp only [List.find?_eq_none, decide_eq_true_eq]
              intro m hMem hStops
              rcases (stops_iff_of_single (h m (by simp [hMem]))).mp hStops with hForeign | hDefault
              · exact hSplit before n after rfl hn hBefore m hMem hForeign
              · exact hBefore m hMem hDefault
            obtain rfl : n = stop := by
              have hnStops : n.Stops := .inr hn.value_eq
              simpa [hGoesOn, hnStops] using hStop
            exact ⟨hn.not_foreign, rfl, rfl⟩

/-- The loop finds the first default route exactly if it stops at it. -/
theorem findsDefault_iff (messages : List RouteMessage) : FindsDefault env messages ↔ StopsAtDefault messages := by
  unfold FindsDefault StopsAtDefault findDefaultRoute
  rw [findRoute_eq]
  cases hStop : messages.find? (·.Stops) with
  | none =>
      have hNone : messages.find? (·.IsDefault) = none := by
        simp only [List.find?_eq_none, decide_eq_true_eq] at hStop ⊢
        exact fun m hMem hDefault => hStop m hMem (.inr hDefault.value_eq)
      simp [hNone]
  | some m =>
      cases hDefault : messages.find? (·.IsDefault) with
      | none =>
          by_cases hForeign : m.Foreign <;> simp [hForeign, emptyRoute]
      | some n =>
          by_cases hForeign : m.Foreign <;> simp [hForeign, emptyRoute, SameRoute]

/-- A route of another table in front of the default route hides it. -/
theorem foreignTable_hides_default :
    ¬∀ (env : Environment) (messages : List RouteMessage), FindsDefault env messages := by
  intro h
  have hFinds := h ⟨fun _ => some "eth0", "", 0⟩
    [⟨AF_INET, 100, [⟨RTA_DST, 0x0000000A⟩, ⟨RTA_OIF, 3⟩]⟩,
      ⟨AF_INET, RT_TABLE_MAIN, [⟨RTA_GATEWAY, 0x0101A8C0⟩, ⟨RTA_OIF, 2⟩]⟩]
  exact absurd hFinds.1 (by decide)

end ImpactSockets.Networking
