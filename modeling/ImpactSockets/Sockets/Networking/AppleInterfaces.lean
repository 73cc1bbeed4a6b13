import Mathlib.Data.List.Induction
import Mathlib.Logic.Function.Basic
import ImpactSockets.Sockets.Networking.Interfaces

/-! The interfaces on macOS, where a link is an entry of its own: what it says of the type
and the hardware address is kept for the entries behind it that have its name. -/
namespace ImpactSockets.Networking.Apple

/-- `get_interface_type`, of the `IFT` codes. -/
def getInterfaceType (type : UInt8) : InterfaceType :=
  if type = 0x06 ∨ type = 0x1A then .ethernet
  else if type = 0x47 ∨ type = 0xC0 ∨ type = 0x0A then .wifi
  else if type = 0x90 then .firewire
  else if type = 0x17 then .ppp
  else if type = 0x25 then .atm
  else .other

/-- The map of `traverse_links`. -/
abbrev Hardware := String → Option NetInterface

/-- The link may have no address, and the history of an interface no link. -/
def setInterfaceTypeMac (target : IfAddrs) (token : NetInterface) (hardware : Hardware) : NetInterface × Hardware :=
  let token := { token with type := .other, mac := List.replicate 6 0 }
  match target.addr with
  | some (.link type address) =>
      let token := { token with
        type := getInterfaceType type
        mac := if address.length ≠ 0 then address else token.mac }
      (token, Function.update hardware token.name (some token))
  | _ =>
      match hardware token.name with
      | some iface => ({ token with mac := iface.mac, type := iface.type }, hardware)
      | none => (token, hardware)

variable (nameToIndex : String → UInt32)

/-- One turn of the loop. -/
def visitLink (state : List NetInterface × Hardware) (target : IfAddrs) : List NetInterface × Hardware :=
  let result := setInterfaceTypeMac target (linkToken nameToIndex target) state.2
  (if target.IsLink then state.1 else state.1 ++ [result.1], result.2)

def traverseLinks (addresses : List IfAddrs) : List NetInterface :=
  (addresses.foldl (visitLink nameToIndex) ([], fun _ => none)).1

/-! ### The history of a name -/

/-- The type and the address of an entry that is a link of the name. -/
def linkNamed (name : String) (target : IfAddrs) : Option (InterfaceType × Bytes) :=
  match target.addr with
  | some (.link type address) =>
      if target.name = name then
        some (getInterfaceType type, if address.length ≠ 0 then address else List.replicate 6 0)
      else none
  | _ => none

/-- The last link of the name among the entries. -/
def lastLink (before : List IfAddrs) (name : String) : Option (InterfaceType × Bytes) :=
  (before.filterMap (linkNamed name)).getLast?

/-- What is listed of an entry behind others. -/
def identified (before : List IfAddrs) (target : IfAddrs) : NetInterface :=
  let hardware := (lastLink before target.name).getD (.other, List.replicate 6 0)
  { linkToken nameToIndex target with
    type := hardware.1
    mac := hardware.2 }

/-- The last entry is the last link if it is one of that name. -/
theorem lastLink_concat (before : List IfAddrs) (target : IfAddrs) (name : String) :
    lastLink (before ++ [target]) name = (linkNamed name target).or (lastLink before name) := by
  unfold lastLink
  rw [List.filterMap_append]
  cases h : linkNamed name target <;> simp [h]

/-- The map holds the last link of every name. -/
def Remembers (before : List IfAddrs) (hardware : Hardware) : Prop :=
  ∀ name, (hardware name).map (fun iface => (iface.type, iface.mac)) = lastLink before name

variable {before : List IfAddrs} {hardware : Hardware} {target : IfAddrs}

/-- A link replaces what the map holds under its name. -/
theorem remembers_link (remembers : Remembers before hardware) (h : target.IsLink) :
    Remembers (before ++ [target]) (setInterfaceTypeMac target (linkToken nameToIndex target) hardware).2 := by
  obtain ⟨type, address, hAddress⟩ := h
  intro name
  rw [lastLink_concat, ← remembers name]
  simp only [setInterfaceTypeMac, linkNamed, hAddress]
  by_cases hName : target.name = name
  · subst hName
    simp [linkToken]
  · have hOther : name ≠ (linkToken nameToIndex target).name := fun hEq => hName hEq.symm
    simp [hName, Function.update_of_ne hOther]

/-- Another entry takes what the map holds under its name. -/
theorem setInterfaceTypeMac_of_not_link (remembers : Remembers before hardware) (h : ¬target.IsLink) :
    setInterfaceTypeMac target (linkToken nameToIndex target) hardware =
      (identified nameToIndex before target, hardware) := by
  have hRemembers := remembers target.name
  have hOther : setInterfaceTypeMac target (linkToken nameToIndex target) hardware =
      match hardware target.name with
      | some iface => ({ linkToken nameToIndex target with mac := iface.mac, type := iface.type }, hardware)
      | none => ({ linkToken nameToIndex target with type := .other, mac := List.replicate 6 0 }, hardware) := by
    unfold setInterfaceTypeMac
    split
    · next type address hAddress => exact (h ⟨type, address, hAddress⟩).elim
    · rfl
  rw [hOther, identified, ← hRemembers]
  cases hardware target.name <;> rfl

/-- An entry that is no link is the link of no name. -/
theorem linkNamed_of_not_link (h : ¬target.IsLink) (name : String) : linkNamed name target = none := by
  unfold linkNamed
  split
  · next type address hAddress => exact (h ⟨type, address, hAddress⟩).elim
  · rfl

/-- What is listed of the entry at an index. -/
def listedAt (addresses : List IfAddrs) (i : Nat) : Option NetInterface :=
  addresses[i]?.bind fun target =>
    if target.IsLink then none else some (identified nameToIndex (addresses.take i) target)

def listed (addresses : List IfAddrs) : List NetInterface :=
  (List.range addresses.length).filterMap (listedAt nameToIndex addresses)

/-- One more entry is listed, identified by the links before it. -/
theorem listed_concat (addresses : List IfAddrs) (target : IfAddrs) : listed nameToIndex (addresses ++ [target]) =
    listed nameToIndex addresses ++ if target.IsLink then [] else [identified nameToIndex addresses target] := by
  have hBefore : ∀ i ∈ List.range addresses.length,
      listedAt nameToIndex (addresses ++ [target]) i = listedAt nameToIndex addresses i := by
    intro i hi
    have hi := List.mem_range.mp hi
    rw [listedAt, listedAt, List.getElem?_append_left hi, List.take_append_of_le_length hi.le]
  have hLast : listedAt nameToIndex (addresses ++ [target]) addresses.length =
      if target.IsLink then none else some (identified nameToIndex addresses target) := by
    rw [listedAt, List.getElem?_concat_length, List.take_left]
    rfl
  rw [listed, List.length_append, List.length_singleton, List.range_succ, List.filterMap_append,
    List.filterMap_congr hBefore, listed]
  refine congrArg _ ?_
  by_cases h : target.IsLink <;> simp [hLast, h]

/-- The loop lists what the specification says and remembers the last links. -/
theorem foldl_visitLink (addresses : List IfAddrs) :
    (addresses.foldl (visitLink nameToIndex) ([], fun _ => none)).1 = listed nameToIndex addresses ∧
      Remembers addresses (addresses.foldl (visitLink nameToIndex) ([], fun _ => none)).2 := by
  induction addresses using List.reverseRecOn with
  | nil => exact ⟨rfl, fun name => rfl⟩
  | append_singleton addresses target ih =>
      obtain ⟨hList, remembers⟩ := ih
      rw [List.foldl_append, List.foldl_cons, List.foldl_nil, listed_concat, visitLink]
      by_cases h : target.IsLink
      · rw [if_pos h, if_pos h, List.append_nil]
        exact ⟨hList, remembers_link nameToIndex remembers h⟩
      · rw [setInterfaceTypeMac_of_not_link nameToIndex remembers h, if_neg h, if_neg h, hList]
        refine ⟨rfl, fun name => ?_⟩
        rw [lastLink_concat, linkNamed_of_not_link h, Option.none_or]
        exact remembers name

/-- The list has an interface for each entry that is no link, in the order of the entries,
with the type and the hardware address of the last link of its name in front of it. -/
theorem traverseLinks_eq (addresses : List IfAddrs) :
    traverseLinks nameToIndex addresses = listed nameToIndex addresses :=
  (foldl_visitLink nameToIndex addresses).1

end ImpactSockets.Networking.Apple
